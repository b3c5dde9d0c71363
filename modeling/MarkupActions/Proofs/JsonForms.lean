import MarkupActions.Action.Form
import MarkupActions.Action.Outcome
import MarkupActions.Proofs.JsonTexts

/-!
# Actions and results in JSON

An action is read from any members among which its own can be looked up, in whatever order they come
and whatever else stands among them. So it is read back from the text that it is written as, and so
is a result.
-/

namespace MarkupActions

namespace Json

variable {α : Type} {encode : α → Json} {decode : Json → Option α} {name : String}
    {m : List (String × Json)}

theorem lookup_member (key name : String) (j : Json) (m : List (String × Json)) :
    ((name, j) :: m).lookup key = if key = name then some j else m.lookup key := by
  by_cases same : key = name
  · simp [same]
  · simp [List.lookup_cons, same, beq_false_of_ne same]

/-- A member that is left out has no value, and any other has the value that is written. -/
theorem lookup_optionalMember (encode : α → Json) (name key : String) (value : Option α) :
    (optionalMember encode name value).lookup key = if key = name then value.map encode
    else none := by
  cases value with
  | none => simp [optionalMember]
  | some a => rw [optionalMember, lookup_member, Option.map_some, List.lookup_nil]

theorem required?_eq {j : Json} (found : m.lookup name = some j) :
    required? decode name m = decode j := by
  rw [required?, found, Option.bind_some]

theorem withDefault?_eq {j : Json} (found : m.lookup name = some j) (value : α) :
    withDefault? decode value name m = decode j := by
  rw [withDefault?, found]

theorem flag?_eq {b : Bool} (found : m.lookup name = some (bool b)) : flag? name m = some b :=
  withDefault?_eq found false

/-- An optional member is read back if its values are, and none of them is written as null. -/
theorem optional?_eq {value : Option α} (found : m.lookup name = value.map encode)
    (back : ∀ a, decode (encode a) = some a) (given : ∀ a, encode a ≠ null) :
    optional? decode name m = some value := by
  cases value with
  | none => simp [optional?, found]
  | some a =>
    rw [Option.map_some] at found
    unfold optional?
    split
    · simp_all
    · rename_i missing
      exact False.elim (given a (by simpa [found] using missing))
    · rename_i j _ same
      have written : j = encode a := by simpa [found] using same.symm
      rw [written, back, Option.map_some]

theorem optional?_string {value : Option String} (found : m.lookup name = value.map string) :
    optional? string? name m = some value :=
  optional?_eq found (fun _ => rfl) fun _ => nofun

theorem optional?_bool {value : Option Bool} (found : m.lookup name = value.map bool) :
    optional? bool? name m = some value :=
  optional?_eq found (fun _ => rfl) fun _ => nofun

theorem word?_ofWord (n : UInt64) : (ofWord n).word? = some n := by
  have small : n.toNat < UInt64.size := n.toNat_lt
  simp [ofWord, word?, natural?, small]

theorem optional?_word {value : Option UInt64} (found : m.lookup name = value.map ofWord) :
    optional? word? name m = some value :=
  optional?_eq found word?_ofWord fun _ => nofun

theorem strings?_strings (values : List String) : strings? (strings values) = some values := by
  have each : values.mapM (string? ∘ string) = some (values.map id) := List.mapM_pure
  rw [strings, strings?, array?, Option.bind_some, List.mapM_map, each, List.map_id]

/-! ## Whole forms -/

theorem membersWhole_append (front back : List (String × Json)) :
    membersWhole (front ++ back) = (membersWhole front && membersWhole back) := by
  induction front with
  | nil => rfl
  | cons member front ih => simp [membersWhole, ih, Bool.and_assoc]

theorem membersWhole_optionalMember (whole : ∀ a, isWhole (encode a) = true) (name : String)
    (value : Option α) :
    membersWhole (optionalMember encode name value) = true := by
  cases value with
  | none => rfl
  | some a => simp [optionalMember, membersWhole, whole]

theorem membersWhole_string (name : String) (value : Option String) :
    membersWhole (optionalMember string name value) = true :=
  membersWhole_optionalMember (fun _ => rfl) name value

theorem membersWhole_bool (name : String) (value : Option Bool) :
    membersWhole (optionalMember bool name value) = true :=
  membersWhole_optionalMember (fun _ => rfl) name value

theorem membersWhole_word (name : String) (value : Option UInt64) :
    membersWhole (optionalMember ofWord name value) = true :=
  membersWhole_optionalMember (fun _ => rfl) name value

theorem isWhole_strings (values : List String) : isWhole (strings values) = true := by
  rw [strings, isWhole]
  induction values with
  | nil => rfl
  | cons value values ih => exact ih

end Json

namespace Action

open Json (lookup_member lookup_optionalMember required?_eq flag?_eq optional?_string optional?_bool
  optional?_word
  strings?_strings)

/-- An action is read from any members in which its own are found. -/
theorem ofMembers?_eq (action : Action) {m : List (String × Json)}
    (found : ∀ name ∈ memberNames action.kind, m.lookup name = action.members.lookup name) :
    ofMembers? action.kind m = some action := by
  cases action <;>
    simp [memberNames, kind, members, lookup_member, lookup_optionalMember, List.lookup_append]
      at found
  case read window =>
    obtain ⟨path, offset, limit⟩ := found
    simp [kind, ofMembers?, required?_eq path, optional?_word offset, optional?_word limit,
      Json.string?]
  case write file =>
    obtain ⟨path, content⟩ := found
    simp [kind, ofMembers?, required?_eq path, required?_eq content, Json.string?]
  case create file =>
    obtain ⟨path, content⟩ := found
    simp [kind, ofMembers?, required?_eq path, required?_eq content, Json.string?]
  case edit change =>
    obtain ⟨path, search, replace, everywhere⟩ := found
    simp [kind, ofMembers?, required?_eq path, required?_eq search, required?_eq replace,
      flag?_eq everywhere, Json.string?]
  case bash call =>
    obtain ⟨command, timeout, background, description, directory⟩ := found
    simp [kind, ofMembers?, required?_eq command, optional?_word timeout, flag?_eq background,
      optional?_string description, optional?_string directory, Json.string?]
  case grep search =>
    obtain ⟨pattern, path, files, ignoreCase⟩ := found
    simp [kind, ofMembers?, required?_eq pattern, optional?_string path, optional?_string files,
      flag?_eq ignoreCase, Json.string?]
  case glob search =>
    obtain ⟨pattern, path⟩ := found
    simp [kind, ofMembers?, required?_eq pattern, optional?_string path, Json.string?]
  case list listing =>
    obtain ⟨path, recursive⟩ := found
    simp [kind, ofMembers?, required?_eq path, flag?_eq recursive, Json.string?]
  case fetch retrieval =>
    obtain ⟨url, prompt⟩ := found
    simp [kind, ofMembers?, required?_eq url, optional?_string prompt, Json.string?]
  case schedule job =>
    obtain ⟨name, cron, kind, payload⟩ := found
    simp [Action.kind, ofMembers?, required?_eq name, required?_eq cron, required?_eq kind,
      required?_eq payload, Json.string?, jobKind?, JobKind.ofName?_name]
  case unschedule name =>
    simp [kind, ofMembers?, required?_eq found, Json.string?]
  case notify notice =>
    obtain ⟨message, title, priority⟩ := found
    simp [kind, ofMembers?, required?_eq message, optional?_string title, optional?_string priority,
      Json.string?]
  case say text =>
    simp [kind, ofMembers?, required?_eq found, Json.string?]
  case finish summary =>
    simp [kind, ofMembers?, optional?_string found]
  case skill call =>
    obtain ⟨name, arguments⟩ := found
    simp [kind, ofMembers?, required?_eq name, optional?_string arguments, Json.string?]
  case task delegation =>
    obtain ⟨prompt, description, agent⟩ := found
    simp [kind, ofMembers?, required?_eq prompt, optional?_string description,
      optional?_string agent, Json.string?]
  case plan agenda =>
    obtain ⟨title, steps⟩ := found
    simp [kind, ofMembers?, optional?_string title, required?_eq steps, strings?_strings]
  case telegram settings =>
    obtain ⟨botToken, chatId, enabled⟩ := found
    simp [kind, ofMembers?, optional?_string botToken, optional?_string chatId,
      optional?_bool enabled]
  case discord settings =>
    obtain ⟨botToken, channelId, webhookUrl, enabled⟩ := found
    simp [kind, ofMembers?, optional?_string botToken, optional?_string channelId,
      optional?_string webhookUrl, optional?_bool enabled]

/-- No member of an action is called as its kind is. -/
theorem type_not_member : ∀ kind ∈ Kind.all, "type" ∉ memberNames kind := by
  decide

/-- An object is read as an action if it names the kind and the members of the action are found in
it. -/
theorem ofJson?_object (action : Action) {m : List (String × Json)}
    (named : m.lookup "type" = some (.string action.kind.name))
    (found : ∀ name ∈ memberNames action.kind, m.lookup name = action.members.lookup name) :
    ofJson? (.object m) = some action := by
  have known : kind? (.string action.kind.name) = some action.kind := Kind.ofName?_name action.kind
  rw [ofJson?, required?_eq named, known]
  exact ofMembers?_eq action found

theorem ofJson?_toJson (action : Action) : ofJson? action.toJson = some action := by
  refine ofJson?_object action (lookup_member _ _ _ _) fun name listed => ?_
  have other : name ≠ "type" := fun same => type_not_member _ action.kind.mem_all (same ▸ listed)
  rw [lookup_member, if_neg other]

theorem isWhole_toJson (action : Action) : action.toJson.isWhole = true := by
  cases action <;>
    simp [toJson, members, Json.isWhole, Json.membersWhole, Json.membersWhole_append,
      Json.membersWhole_string, Json.membersWhole_bool, Json.membersWhole_word,
      Json.isWhole_strings]

end Action

namespace ActionResult

open Json (lookup_member lookup_optionalMember required?_eq optional?_string)

/-- An object is read as a result if its members are found in it. -/
theorem ofJson?_object (result : ActionResult) {m : List (String × Json)}
    (action : m.lookup "action" = some (.string result.action))
    (success : m.lookup "success" = some (.bool result.success))
    (text : m.lookup "result" = some (.string result.result))
    (error : m.lookup "error" = result.error.map .string) : ofJson? (.object m) = some result := by
  simp [ofJson?, Json.record?, required?_eq action, required?_eq success, required?_eq text,
    optional?_string error, Json.string?, Json.bool?]

theorem ofJson?_toJson (result : ActionResult) : ofJson? result.toJson = some result := by
  apply ofJson?_object <;> simp [lookup_member, lookup_optionalMember]

theorem isWhole_toJson (result : ActionResult) : result.toJson.isWhole = true := by
  simp [toJson, Json.isWhole, Json.membersWhole, Json.membersWhole_string]

end ActionResult

/-- Actions and results are read back from their compact texts. -/
theorem Json.parse?_forms :
    (∀ action : Action, (parse? action.toJson.compact).bind Action.ofJson? = some action) ∧
      ∀ result : ActionResult, (parse? result.toJson.compact).bind ActionResult.ofJson? =
        some result := by
  constructor
  · intro action
    rw [parse?_compact action.isWhole_toJson, Option.bind_some, action.ofJson?_toJson]
  · intro result
    rw [parse?_compact result.isWhole_toJson, Option.bind_some, result.ofJson?_toJson]

end MarkupActions
