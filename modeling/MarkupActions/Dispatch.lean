import MarkupActions.Action.Kind
import MarkupActions.Action.Label
import MarkupActions.Action.Outcome

/-!
# Dispatch

Actions run one after the other, each on the state that those before it have left. A handler may
fail or panic; either becomes a result and nothing else comes of it. An action that no handler
serves yields no result and leaves the state alone.
-/

namespace MarkupActions

inductive HandlerError where
  | failed (reason : String)
  | invalidPayload (reason : String)
  | unavailable (reason : String)
  | io (reason : String)
deriving DecidableEq

def HandlerError.message : HandlerError → String
  | failed reason => "Action handler failed: " ++ reason
  | invalidPayload reason => "Payload validation failed: " ++ reason
  | unavailable reason => "Capability unavailable: " ++ reason
  | io reason => "I/O error: " ++ reason

/-- What a handler comes to. A panic may carry a text. -/
inductive HandlerOutcome where
  | done (text : String)
  | refused (error : HandlerError)
  | panicked (text : Option String)
deriving DecidableEq

/-- A handler reads the state left to it and leaves another. -/
abbrev Handler (State : Type) := Action → State → HandlerOutcome × State

/-- At most one handler for each kind of action. -/
abbrev HandlerTable (State : Type) := Kind → Option (Handler State)

namespace HandlerOutcome

def report (label : String) : HandlerOutcome → ActionResult
  | done text => .ok label text
  | refused error => .failed label error.message
  | panicked text => .failed label ("Handler panicked: " ++ text.getD "unknown panic")

end HandlerOutcome

namespace HandlerTable

variable {State : Type}

def wired (table : HandlerTable State) : List Kind :=
  Kind.all.filter fun kind => (table kind).isSome

def runOne (table : HandlerTable State) (action : Action) (state : State) :
    Option ActionResult × State :=
  match table action.kind with
  | none => (none, state)
  | some handler =>
    let (outcome, state) := handler action state
    (some (outcome.report action.label), state)

def runEach (table : HandlerTable State) : List Action → State → List (Option ActionResult) × State
  | [], state => ([], state)
  | action :: actions, state =>
    let (result, state) := table.runOne action state
    let (results, state) := table.runEach actions state
    (result :: results, state)

/-- Runs actions in turn, or only the first of them, and reports on those that were run. -/
def run (table : HandlerTable State) (oneAtATime : Bool) (actions : List Action) (state : State) :
    List ActionResult × State :=
  let (results, state) := table.runEach (if oneAtATime then actions.take 1 else actions) state
  (results.filterMap id, state)

end HandlerTable

end MarkupActions
