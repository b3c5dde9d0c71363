import MarkupActions.Action.Kind
import MarkupActions.Json.Writer
import MarkupActions.Json.Record

/-!
# Actions in JSON

An action is written as one object: `type` with the name of its kind, then its members in a fixed
order, the absent ones left out. It is read from any object with these members, in whatever order.
-/

namespace MarkupActions.Action

open Json (optionalMember required? optional? flag? string? word? bool? strings?)

def members : Action → List (String × Json)
  | read window =>
    [("path", .string window.path)] ++ optionalMember Json.ofWord "offset" window.offset ++
      optionalMember Json.ofWord "limit" window.limit
  | write file => [("path", .string file.path), ("content", .string file.content)]
  | create file => [("path", .string file.path), ("content", .string file.content)]
  | edit change =>
    [("path", .string change.path), ("search", .string change.search),
      ("replace", .string change.replace), ("replace_all", .bool change.everywhere)]
  | bash call =>
    [("command", .string call.command)] ++ optionalMember Json.ofWord "timeout_ms" call.timeout ++
      [("background", .bool call.background)] ++
        optionalMember Json.string "description" call.description ++
      optionalMember Json.string "cwd" call.directory
  | grep search =>
    [("pattern", .string search.pattern)] ++ optionalMember Json.string "path" search.path ++
      optionalMember Json.string "include" search.files ++
        [("case_insensitive", .bool search.ignoreCase)]
  | glob search =>
    [("pattern", .string search.pattern)] ++ optionalMember Json.string "path" search.path
  | list listing => [("path", .string listing.path), ("recursive", .bool listing.recursive)]
  | fetch retrieval =>
    [("url", .string retrieval.url)] ++ optionalMember Json.string "prompt" retrieval.prompt
  | schedule job =>
    [("name", .string job.name), ("cron", .string job.cron), ("kind", .string job.kind.name),
      ("payload", .string job.payload)]
  | unschedule name => [("name", .string name)]
  | notify notice =>
    [("message", .string notice.message)] ++ optionalMember Json.string "title" notice.title ++
      optionalMember Json.string "priority" notice.priority
  | say text => [("text", .string text)]
  | finish summary => optionalMember Json.string "summary" summary
  | skill call => [("name", .string call.name)] ++ optionalMember Json.string "args" call.arguments
  | task delegation =>
    [("prompt", .string delegation.prompt)] ++
      optionalMember Json.string "description" delegation.description ++
      optionalMember Json.string "agent" delegation.agent
  | plan agenda =>
    optionalMember Json.string "title" agenda.title ++ [("steps", Json.strings agenda.steps)]
  | telegram settings =>
    optionalMember Json.string "bot_token" settings.botToken ++
      optionalMember Json.string "chat_id" settings.chatId ++
        optionalMember Json.bool "enabled" settings.enabled
  | discord settings =>
    optionalMember Json.string "bot_token" settings.botToken ++
      optionalMember Json.string "channel_id" settings.channelId ++
      optionalMember Json.string "webhook_url" settings.webhookUrl ++
      optionalMember Json.bool "enabled" settings.enabled

def toJson (action : Action) : Json :=
  .object (("type", .string action.kind.name) :: action.members)

def memberNames : Kind → List String
  | .read => ["path", "offset", "limit"]
  | .write => ["path", "content"]
  | .create => ["path", "content"]
  | .edit => ["path", "search", "replace", "replace_all"]
  | .bash => ["command", "timeout_ms", "background", "description", "cwd"]
  | .grep => ["pattern", "path", "include", "case_insensitive"]
  | .glob => ["pattern", "path"]
  | .list => ["path", "recursive"]
  | .fetch => ["url", "prompt"]
  | .schedule => ["name", "cron", "kind", "payload"]
  | .unschedule => ["name"]
  | .notify => ["message", "title", "priority"]
  | .say => ["text"]
  | .finish => ["summary"]
  | .skill => ["name", "args"]
  | .task => ["prompt", "description", "agent"]
  | .plan => ["title", "steps"]
  | .telegram => ["bot_token", "chat_id", "enabled"]
  | .discord => ["bot_token", "channel_id", "webhook_url", "enabled"]

/-- The kind of job that a JSON value stands for: its name, or an object in which the name stands
alone and has nothing for its value. -/
def jobKind? : Json → Option JobKind
  | .string name => JobKind.ofName? name
  | .object [(name, .null)] => JobKind.ofName? name
  | .object [(name, .object [])] => JobKind.ofName? name
  | _ => none

def ofMembers? (kind : Kind) (m : List (String × Json)) : Option Action :=
  match kind with
  | .read => do
    some (read ⟨← required? string? "path" m, ← optional? word? "offset" m,
      ← optional? word? "limit" m⟩)
  | .write => do some (write ⟨← required? string? "path" m, ← required? string? "content" m⟩)
  | .create => do some (create ⟨← required? string? "path" m, ← required? string? "content" m⟩)
  | .edit => do
    some (edit ⟨← required? string? "path" m, ← required? string? "search" m,
      ← required? string? "replace" m, ← flag? "replace_all" m⟩)
  | .bash => do
    some (bash ⟨← required? string? "command" m, ← optional? word? "timeout_ms" m,
      ← flag? "background" m, ← optional? string? "description" m, ← optional? string? "cwd" m⟩)
  | .grep => do
    some (grep ⟨← required? string? "pattern" m, ← optional? string? "path" m,
      ← optional? string? "include" m, ← flag? "case_insensitive" m⟩)
  | .glob => do some (glob ⟨← required? string? "pattern" m, ← optional? string? "path" m⟩)
  | .list => do some (list ⟨← required? string? "path" m, ← flag? "recursive" m⟩)
  | .fetch => do some (fetch ⟨← required? string? "url" m, ← optional? string? "prompt" m⟩)
  | .schedule => do
    some (schedule ⟨← required? string? "name" m, ← required? string? "cron" m,
      ← required? jobKind? "kind" m, ← required? string? "payload" m⟩)
  | .unschedule => do some (unschedule (← required? string? "name" m))
  | .notify => do
    some (notify ⟨← required? string? "message" m, ← optional? string? "title" m,
      ← optional? string? "priority" m⟩)
  | .say => do some (say (← required? string? "text" m))
  | .finish => do some (finish (← optional? string? "summary" m))
  | .skill => do some (skill ⟨← required? string? "name" m, ← optional? string? "args" m⟩)
  | .task => do
    some (task ⟨← required? string? "prompt" m, ← optional? string? "description" m,
      ← optional? string? "agent" m⟩)
  | .plan => do some (plan ⟨← optional? string? "title" m, ← required? strings? "steps" m⟩)
  | .telegram => do
    some (telegram ⟨← optional? string? "bot_token" m, ← optional? string? "chat_id" m,
      ← optional? bool? "enabled" m⟩)
  | .discord => do
    some (discord ⟨← optional? string? "bot_token" m, ← optional? string? "channel_id" m,
      ← optional? string? "webhook_url" m, ← optional? bool? "enabled" m⟩)

def kind? (j : Json) : Option Kind := j.string?.bind Kind.ofName?

/-- The action that a JSON value stands for. The kind is `type`, or the first value of an array. -/
def ofJson? : Json → Option Action
  | .object members => do ofMembers? (← required? kind? "type" members) members
  | .array (first :: items) => do
    let kind ← kind? first
    ofMembers? kind (← Json.record? .refused (memberNames kind) (.array items))
  | _ => none

end MarkupActions.Action
