import MarkupActions.Family.Agent
import MarkupActions.Family.Connectors
import MarkupActions.Family.Files
import MarkupActions.Family.Messages
import MarkupActions.Family.Schedule
import MarkupActions.Family.Shell
import MarkupActions.Family.Web

/-!
# The built-in families

In the order in which they are registered: first those that bear content, then the plan, then the
others.
-/

namespace MarkupActions.Family

def builtIn : List Family :=
  [write, create, edit, say, finish, task, plan, read, bash, grep, glob, list, fetch, schedule,
    unschedule, notify, skill, telegram, discord]

def builtIn? (tag : Text) : Option Family := builtIn.find? (·.owns tag)

end MarkupActions.Family
