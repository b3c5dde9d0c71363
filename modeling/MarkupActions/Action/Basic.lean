/-!
# Actions

What a text can ask for. An action is plain data; which handler serves it is decided by its kind
alone.
-/

namespace MarkupActions

structure FileWindow where
  path : String
  offset : Option UInt64 := none
  limit : Option UInt64 := none
deriving DecidableEq

structure FileContent where
  path : String
  content : String
deriving DecidableEq

structure Substitution where
  path : String
  search : String
  replace : String
  everywhere : Bool := false
deriving DecidableEq

structure ShellCommand where
  command : String
  timeout : Option UInt64 := none
  background : Bool := false
  description : Option String := none
  directory : Option String := none
deriving DecidableEq

structure ContentSearch where
  pattern : String
  path : Option String := none
  files : Option String := none
  ignoreCase : Bool := false
deriving DecidableEq

structure NameSearch where
  pattern : String
  path : Option String := none
deriving DecidableEq

structure Listing where
  path : String
  recursive : Bool := false
deriving DecidableEq

structure Retrieval where
  url : String
  prompt : Option String := none
deriving DecidableEq

inductive JobKind where
  | command
  | prompt
deriving DecidableEq

structure Job where
  name : String
  cron : String
  kind : JobKind
  payload : String
deriving DecidableEq

structure Notice where
  message : String
  title : Option String := none
  priority : Option String := none
deriving DecidableEq

structure SkillCall where
  name : String
  arguments : Option String := none
deriving DecidableEq

structure Delegation where
  prompt : String
  description : Option String := none
  agent : Option String := none
deriving DecidableEq

structure Plan where
  title : Option String := none
  steps : List String
deriving DecidableEq

structure TelegramSettings where
  botToken : Option String := none
  chatId : Option String := none
  enabled : Option Bool := none
deriving DecidableEq

structure DiscordSettings where
  botToken : Option String := none
  channelId : Option String := none
  webhookUrl : Option String := none
  enabled : Option Bool := none
deriving DecidableEq

inductive Action where
  | read (window : FileWindow)
  | write (file : FileContent)
  | create (file : FileContent)
  | edit (change : Substitution)
  | bash (call : ShellCommand)
  | grep (search : ContentSearch)
  | glob (search : NameSearch)
  | list (listing : Listing)
  | fetch (retrieval : Retrieval)
  | schedule (job : Job)
  | unschedule (name : String)
  | notify (notice : Notice)
  | say (text : String)
  | finish (summary : Option String)
  | skill (call : SkillCall)
  | task (delegation : Delegation)
  | plan (agenda : Plan)
  | telegram (settings : TelegramSettings)
  | discord (settings : DiscordSettings)
deriving DecidableEq

end MarkupActions
