import MarkupActions.Action.Basic
import MarkupActions.Text.Basic

/-!
# Labels

One line that tells a reader which action is meant. Free text is put on one line and cut after sixty
characters; names and paths stand as they are.
-/

namespace MarkupActions

namespace Label

/-- How many characters of free text a label shows. -/
def width : Nat := 60

/-- Free text on one line, cut if it is long. -/
def excerpt (s : String) : String :=
  let line := [' '].intercalate (Text.words s.toList)
  if line.length ≤ width then String.ofList line
    else String.ofList (line.take width ++ ['.', '.', '.'])

end Label

def Action.label : Action → String
  | read window => "Read " ++ window.path
  | write file => "Write " ++ file.path
  | create file => "Create " ++ file.path
  | edit change => "Edit " ++ change.path
  | bash call => "Bash: " ++ Label.excerpt (call.description.getD call.command)
  | grep search => "Grep " ++ Label.excerpt search.pattern
  | glob search => "Glob " ++ search.pattern
  | list listing => "List " ++ listing.path
  | fetch retrieval => "Fetch " ++ retrieval.url
  | schedule job => "Schedule " ++ job.name ++ " (" ++ job.cron ++ ")"
  | unschedule name => "Unschedule " ++ name
  | notify notice => "Notify: " ++ Label.excerpt (notice.title.getD notice.message)
  | say text => "Say: " ++ Label.excerpt text
  | finish _ => "End"
  | skill call => "Skill " ++ call.name
  | task delegation => "Task: " ++ Label.excerpt (delegation.description.getD delegation.prompt)
  | plan agenda => "Plan (" ++ toString agenda.steps.length ++ " steps)"
  | telegram _ => "Configure Telegram"
  | discord _ => "Configure Discord"

end MarkupActions
