import MarkupActions.Action.Kind
import MarkupActions.Family.Search

/-!
# Recurring jobs
-/

namespace MarkupActions.Family

/-- Whether a text has the five fields of a cron expression, or six with the seconds in front. -/
def isCron (s : Text) : Bool :=
  let n := (Text.words s).length
  n == 5 || n == 6

def scheduleAction? (block : Block) : Option Action := do
  let name ← block.value? ["name"]
  let cron ← block.value? ["cron", "expression"]
  let payload ← block.bodyText?
  if isCron cron then
    some (.schedule
      { name := String.ofList name
        cron := String.ofList cron
        kind := JobKind.ofAttribute (block.raw? "type")
        payload := String.ofList payload })
  else none

def schedule : Family where
  tags := names ["schedule"]
  aliases := aliasesOf "schedule" ["cron"]
  repairs := [.unterminatedClosing (names ["schedule", "cron"])]
  extract _ s := (structuralBlocks ["schedule"] s).filterMap scheduleAction?

def unscheduleAction? (block : Block) : Option Action :=
  (block.valueOrBody? ["name"]).map fun name => .unschedule (String.ofList name)

def unschedule : Family where
  tags := names ["unschedule"]
  selfClosing := names ["unschedule"]
  repairs := usualRepairs ["unschedule"]
  extract _ s := (structuralBlocks ["unschedule"] s).filterMap unscheduleAction?

end MarkupActions.Family
