import MarkupActions.Dispatch

/-!
# Staging

Handlers that say what they would do and do nothing. Every kind is served; only a shell command
without a command is refused.
-/

namespace MarkupActions.Staging

def isBlankCommand : Action → Bool
  | .bash call => (Text.trim call.command.toList).isEmpty
  | _ => false

def stage (action : Action) : HandlerOutcome :=
  if isBlankCommand action then .refused (.invalidPayload "Shell command must not be empty")
  else .done ("Staged: " ++ action.label)

def handlers (State : Type) : HandlerTable State :=
  fun _ => some fun action state => (stage action, state)

end MarkupActions.Staging
