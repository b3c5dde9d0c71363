import MarkupActions.Action.Basic
import MarkupActions.Text.Fold

/-!
# Kinds of action

The constructors of `Action` without what they hold. Each kind has one name, which is also the
canonical tag of the family that yields it.
-/

namespace MarkupActions

inductive Kind where
  | read | write | create | edit | bash | grep | glob | list | fetch | schedule | unschedule
      | notify | say
  | finish | skill | task | plan | telegram | discord
deriving DecidableEq

namespace Kind

def all : List Kind :=
  [read, write, create, edit, bash, grep, glob, list, fetch, schedule, unschedule, notify, say,
    finish, skill, task, plan, telegram, discord]

def name : Kind → String
  | read => "read"
  | write => "write"
  | create => "create"
  | edit => "edit"
  | bash => "bash"
  | grep => "grep"
  | glob => "glob"
  | list => "list"
  | fetch => "fetch"
  | schedule => "schedule"
  | unschedule => "unschedule"
  | notify => "notify"
  | say => "say"
  | finish => "end"
  | skill => "skill"
  | task => "task"
  | plan => "plan"
  | telegram => "telegram-config"
  | discord => "discord-config"

/-- The kind of that name; letter case counts. -/
def ofName? (name : String) : Option Kind := all.find? fun kind => kind.name == name

theorem mem_all (kind : Kind) : kind ∈ all := by
  cases kind <;> decide

theorem ofName?_name (kind : Kind) : ofName? kind.name = some kind := by
  cases kind <;> decide

/-- What is said of a name that no kind has. -/
def unknownMessage (name : String) : String := "Unknown action type: " ++ name

def index (kind : Kind) : Nat := all.idxOf kind

end Kind

def Action.kind : Action → Kind
  | read _ => .read
  | write _ => .write
  | create _ => .create
  | edit _ => .edit
  | bash _ => .bash
  | grep _ => .grep
  | glob _ => .glob
  | list _ => .list
  | fetch _ => .fetch
  | schedule _ => .schedule
  | unschedule _ => .unschedule
  | notify _ => .notify
  | say _ => .say
  | finish _ => .finish
  | skill _ => .skill
  | task _ => .task
  | plan _ => .plan
  | telegram _ => .telegram
  | discord _ => .discord

namespace JobKind

def name : JobKind → String
  | command => "command"
  | prompt => "prompt"

def ofName? (name : String) : Option JobKind :=
  [command, prompt].find? fun kind => kind.name == name

theorem ofName?_name (kind : JobKind) : ofName? kind.name = some kind := by
  cases kind <;> decide

/-- The kind that an attribute asks for: a prompt if it says so, else a command. -/
def ofAttribute (value : Option Text) : JobKind :=
  match value with
  | none => command
  | some v =>
    if ["prompt".toList, "llm".toList].contains (Text.lower (Text.trim v)) then prompt else command

end JobKind

end MarkupActions
