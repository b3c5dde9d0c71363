import Mathlib.Data.List.Nodup
import MarkupActions.Proofs.Fields

/-!
# From an action to a tag and back

What the readers of the families make of a block that carries the fields of an action is that
action, field by field: a text that they decode needs no decoding, a number is read from its digits,
a yes or no from its word, and a field that is absent is not found under any of its names. With the
preparation out of the way this is the whole of a round trip.
-/

namespace MarkupActions

def slotNames : Kind → List String
  | .read => ["path", "offset", "limit"]
  | .bash => ["command", "timeout", "background", "description", "cwd"]
  | .grep => ["pattern", "path", "include", "case_insensitive"]
  | .glob => ["pattern", "path"]
  | .list => ["path", "recursive"]
  | .fetch => ["url"]
  | .unschedule => ["name"]
  | .notify => ["message", "title", "priority"]
  | .skill => ["name", "args"]
  | .telegram => ["bot_token", "chat_id", "enabled"]
  | .discord => ["bot_token", "channel_id", "webhook_url", "enabled"]
  | _ => []

theorem slotNames_keys (kind : Kind) :
    (slotNames kind).Nodup ∧ ∀ name ∈ slotNames kind, Attribute.IsKey name.toList := by
  cases kind <;> decide

namespace Action

theorem names_slots (action : Action) :
    (action.slots.map Prod.fst).Sublist (slotNames action.kind) := by
  cases action with
  | fetch retrieval =>
    obtain ⟨url, _ | prompt⟩ := retrieval
    · exact List.Sublist.refl _
    · exact List.nil_sublist _
  | _ => exact List.Sublist.refl _

theorem distinct_slots (action : Action) : (action.slots.map Prod.fst).Nodup :=
  (slotNames_keys action.kind).1.sublist action.names_slots

theorem key_slots {action : Action} {slot : String × Option Field} (inside : slot ∈ action.slots) :
    Attribute.IsKey slot.1.toList :=
  (slotNames_keys action.kind).2 _ (action.names_slots.subset
    (List.mem_map.mpr ⟨slot, inside, rfl⟩))

theorem mem_attributes {action : Action} {a : Attribute} :
    a ∈ action.attributes ↔ ∃ name field, (name, some field) ∈ action.slots ∧
      a = ⟨name.toList, field.written⟩ := by
  rw [attributes, List.mem_filterMap]
  constructor
  · rintro ⟨⟨name, field?⟩, inside, found⟩
    obtain ⟨field, rfl, rfl⟩ := Option.map_eq_some_iff.mp found
    exact ⟨name, field, inside, rfl⟩
  · rintro ⟨name, field, inside, rfl⟩
    exact ⟨_, inside, rfl⟩

theorem distinct_attributes (action : Action) : (action.attributes.map (·.name)).Nodup := by
  have fewer : ∀ slots : List (String × Option Field),
      ((slots.filterMap fun slot =>
          slot.2.map fun field => Attribute.mk slot.1.toList field.written).map (·.name)).Sublist
        ((slots.map Prod.fst).map String.toList) := by
    intro slots
    induction slots with
    | nil => exact List.Sublist.refl _
    | cons slot slots ih =>
      obtain ⟨name, _ | field⟩ := slot
      · exact ih.cons _
      · exact ih.cons_cons _
  exact (action.distinct_slots.map fun _ _ same => String.toList_injective same).sublist
    (fewer action.slots)

end Action

theorem fieldAt_eq_some {slots : List (String × Option Field)}
    (distinct : (slots.map Prod.fst).Nodup) {name : String}
    {field : Field} : fieldAt slots name = some field ↔ (name, some field) ∈ slots := by
  rw [fieldAt, Option.join_eq_some_iff, List.lookup_eq_some_iff]
  constructor
  · rintro ⟨front, back, rfl, _⟩
    simp
  · intro inside
    obtain ⟨front, back, rfl⟩ := List.append_of_mem inside
    refine ⟨front, back, rfl, fun slot among => ?_⟩
    rw [List.map_append, List.nodup_append] at distinct
    have apart := distinct.2.2 slot.1 (List.mem_map.mpr ⟨slot, among, rfl⟩) name (by simp)
    simpa using Ne.symm apart

/-- The attributes of an action in any order carry its fields. -/
theorem carries_attributeTag {action : Action} {attributes : List Attribute} {name : Text}
    (letters : ∀ c ∈ name, Text.isNameChar c = true) (order : attributes.Perm action.attributes)
    (plain : ∀ slot ∈ action.slots, ∀ field ∈ slot.2, field.Plain) :
    Carries (attributeTag name attributes).block action.slots := by
  have keys : ∀ a ∈ attributes, Attribute.IsKey a.name := by
    intro a inside
    obtain ⟨name, field, slot, rfl⟩ := Action.mem_attributes.mp (order.mem_iff.mp inside)
    exact Action.key_slots slot
  have held : ∀ {name field}, fieldAt action.slots name = some field ↔
    (name, some field) ∈ action.slots :=
    fieldAt_eq_some action.distinct_slots
  have quotable : ∀ a ∈ attributes, a.Quotable := by
    intro a inside
    have key := keys a inside
    obtain ⟨name, field, slot, rfl⟩ := Action.mem_attributes.mp (order.mem_iff.mp inside)
    exact ⟨key.starts, key.letters, (Field.plainValue_written (plain _ slot field rfl)).double⟩
  have distinct : (attributes.map (·.name)).Nodup :=
    (order.map _).nodup_iff.mpr action.distinct_attributes
  have text : (attributeTag name attributes).text =
    '<' :: (name ++ (attributes.flatMap Attribute.written ++ ['/', '>'])) := by
    simp [OpeningTag.text, attributeTag]
  have whole : Attribute.all (attributeTag name attributes).text = attributes := by
    rw [text, Attribute.all_tag letters quotable (.inr rfl)]
  refine ⟨fun other key => ?_, fun other field found =>
    plain _ (held.mp found) field rfl, fun other key => ?_, rfl⟩
  · cases found : fieldAt action.slots other with
    | some field =>
      refine Attribute.find?_of_mem keys distinct whole (order.mem_iff.mpr ?_)
      exact Action.mem_attributes.mpr ⟨other, field, held.mp found, rfl⟩
    | none =>
      refine Attribute.find?_of_absent keys key whole fun inside => ?_
      obtain ⟨a, among, same⟩ := List.mem_map.mp inside
      obtain ⟨name, field, slot, rfl⟩ := Action.mem_attributes.mp (order.mem_iff.mp among)
      rw [String.toList_injective same] at slot
      rw [held.mpr slot] at found
      cases found
  · have more : other.toList ≠ [] := by
      intro empty
      have starts := key.starts
      rw [empty] at starts
      cases starts
    have plain : '=' ∉ other.toList := fun inside => by
      have letter := key.letters '=' inside
      revert letter
      decide
    have alone := Attribute.isFlag_tag letters quotable (.inr rfl) more plain
    rwa [← text] at alone

namespace Family

variable {block : Block}

theorem readAction?_slots {window : FileWindow}
    (carries : Carries block (Action.read window).slots) :
    readAction? block = some (.read window) := by
  have path : block.value? pathNames = some window.path.toList := carries.text? (by decide) rfl
  have offset : block.number? "offset" = window.offset := carries.number? (by decide) rfl
  have limit : block.number? "limit" = window.limit := carries.number? (by decide) rfl
  simp [readAction?, path, offset, limit]

theorem bashAction?_slots {call : ShellCommand} (carries : Carries block (Action.bash call).slots) :
    bashAction? block = some (.bash call) := by
  have command : block.valueOrBody? ["command", "cmd"] = some call.command.toList :=
    carries.valueOrBody? (by decide) rfl
  have timeout : block.number? "timeout" = call.timeout := carries.number? (by decide) rfl
  have other : block.number? "timeout_ms" = none := carries.number? (by decide) rfl
  have background : block.holds "background" = call.background := carries.holds (by decide) rfl
  have description : block.string? ["description"] = call.description :=
    carries.string? (by decide) rfl rfl
  have directory : block.string? ["cwd", "workdir"] = call.directory :=
    carries.string? (by decide) rfl rfl
  simp [bashAction?, command, timeout, other, background, description, directory]

theorem grepAction?_slots {search : ContentSearch}
    (carries : Carries block (Action.grep search).slots) :
    grepAction? block = some (.grep search) := by
  have pattern : block.valueOrBody? ["pattern", "query"] = some search.pattern.toList :=
    carries.valueOrBody? (by decide) rfl
  have path : block.string? ["path", "dir"] = search.path := carries.string? (by decide) rfl rfl
  have files : block.string? ["include", "glob"] = search.files :=
    carries.string? (by decide) rfl rfl
  have ignoreCase : block.holds "case_insensitive" = search.ignoreCase :=
    carries.holds (by decide) rfl
  have other : block.holds "ignore_case" = false := carries.not_holds (by decide) rfl
  simp [grepAction?, pattern, path, files, ignoreCase, other]

theorem globAction?_slots {search : NameSearch}
    (carries : Carries block (Action.glob search).slots) :
    globAction? block = some (.glob search) := by
  have pattern : block.valueOrBody? ["pattern"] = some search.pattern.toList :=
    carries.valueOrBody? (by decide) rfl
  have path : block.string? ["path", "dir"] = search.path := carries.string? (by decide) rfl rfl
  simp [globAction?, pattern, path]

theorem listAction_slots {listing : Listing} (carries : Carries block (Action.list listing).slots) :
    listAction block = .list listing := by
  have path : block.value? ["path", "dir"] = some listing.path.toList :=
    carries.text? (by decide) rfl
  have recursive : block.holds "recursive" = listing.recursive := carries.holds (by decide) rfl
  simp [listAction, path, recursive]

theorem fetchAction?_slots {url : String}
    (carries : Carries block (Action.fetch ⟨url, none⟩).slots) :
    fetchAction? block = some (.fetch ⟨url, none⟩) := by
  have value : block.value? ["url", "href"] = some url.toList := carries.text? (by decide) rfl
  have sign : Entity.decode url.toList = url.toList :=
    Entity.decode_of_unsigned (@Carries.unsigned block _ ["url"] carries url rfl)
  simp [fetchAction?, value, sign, carries.bodyText?]

theorem unscheduleAction?_slots {name : String}
    (carries : Carries block (Action.unschedule name).slots) :
    unscheduleAction? block = some (.unschedule name) := by
  have value : block.valueOrBody? ["name"] = some name.toList :=
    carries.valueOrBody? (by decide) rfl
  simp [unscheduleAction?, value]

theorem notifyAction?_slots {notice : Notice}
    (carries : Carries block (Action.notify notice).slots) :
    notifyAction? block = some (.notify notice) := by
  have message : block.valueOrBody? ["message"] = some notice.message.toList :=
    carries.valueOrBody? (by decide) rfl
  have title : block.string? ["title"] = notice.title := carries.string? (by decide) rfl rfl
  have priority : block.string? ["priority"] = notice.priority :=
    carries.string? (by decide) rfl rfl
  simp [notifyAction?, message, title, priority]

/-- The arguments of a skill are looked up as they are written and trimmed afterwards. -/
theorem skillAction?_slots {call : SkillCall} (carries : Carries block (Action.skill call).slots) :
    skillAction? block = some (.skill call) := by
  have name : block.value? ["name"] = some call.name.toList := carries.text? (by decide) rfl
  have raw : block.raw? "args" = (call.arguments.map Field.text).map Field.written :=
    carries.raw "args" (by decide)
  obtain ⟨callee, _ | arguments⟩ := call
  · simp [skillAction?, name, raw, carries.bodyText?]
  · have plain : (Field.text arguments).Plain := carries.plain "args" _ rfl
    have value : PlainValue arguments.toList := plain
    simp [skillAction?, name, raw, Field.written, value.bare, Entity.decode_of_unsigned value.sign,
      nonempty?, value.more]

theorem telegramAction?_slots {settings : TelegramSettings}
    (carries : Carries block (Action.telegram settings).slots)
    (more : settings ≠ {}) : telegramAction? block = some (.telegram settings) := by
  have botToken : block.string? ["bot_token", "token"] = settings.botToken :=
    carries.string? (by decide) rfl rfl
  have chatId : block.string? ["chat_id"] = settings.chatId := carries.string? (by decide) rfl rfl
  have enabled : block.decision? "enabled" = settings.enabled := carries.decision? (by decide) rfl
  simp [telegramAction?, botToken, chatId, enabled, more]

/-- The address of a hook is the one setting that is decoded. -/
theorem discordAction?_slots {settings : DiscordSettings}
    (carries : Carries block (Action.discord settings).slots)
    (more : settings ≠ {}) : discordAction? block = some (.discord settings) := by
  have botToken : block.string? ["bot_token", "token"] = settings.botToken :=
    carries.string? (by decide) rfl rfl
  have channelId : block.string? ["channel_id"] = settings.channelId :=
    carries.string? (by decide) rfl rfl
  have value : block.value? ["webhook_url", "webhook"] = settings.webhookUrl.map String.toList :=
    carries.value?_first (by decide) rfl rfl
  have webhookUrl : ((block.value? ["webhook_url", "webhook"]).map Entity.decode).map String.ofList
    =
      settings.webhookUrl := by
    rw [value]
    cases held : settings.webhookUrl with
    | none => rfl
    | some url =>
      have plain : (Field.text url).Plain :=
        carries.plain "webhook_url" _ (by rw [← Option.map_some, ← held]; rfl)
      simp [Entity.decode_of_unsigned (PlainValue.sign plain)]
  have enabled : block.decision? "enabled" = settings.enabled := carries.decision? (by decide) rfl
  simp [discordAction?, botToken, channelId, webhookUrl, enabled, more]

end Family

namespace Kind

/-- What makes an action of a block, for the kinds that attributes can hold. -/
def reader? : Kind → Option (Block → Option Action)
  | read => some Family.readAction?
  | bash => some Family.bashAction?
  | grep => some Family.grepAction?
  | glob => some Family.globAction?
  | list => some fun block => some (Family.listAction block)
  | fetch => some Family.fetchAction?
  | unschedule => some Family.unscheduleAction?
  | notify => some Family.notifyAction?
  | skill => some Family.skillAction?
  | telegram => some Family.telegramAction?
  | discord => some Family.discordAction?
  | _ => none

theorem fits_name (kind : Kind) : Repair.fits kind.name.toList = true := by
  cases kind <;> decide

/-- It is the one that the family of that name has. -/
theorem reader?_family {kind : Kind} {action? : Block → Option Action}
    (known : kind.reader? = some action?) :
    ∃ family ∈ Registry.builtIn.structuralFamilies, kind.name.toList ∈ family.canonicalTags ∧
      family.retired = [] ∧
      ∀ screening s, family.extract screening s = (family.matcher.blocks s).filterMap action? := by
  have order : Registry.builtIn.structuralFamilies =
      [Family.plan, Family.read, Family.bash, Family.grep, Family.glob, Family.list, Family.fetch,
        Family.schedule, Family.unschedule, Family.notify, Family.skill, Family.telegram,
        Family.discord] := rfl
  rw [order]
  cases kind with
  | read =>
    cases known
    exact ⟨Family.read, by simp, by decide, rfl, fun _ _ => rfl⟩
  | bash =>
    cases known
    exact ⟨Family.bash, by simp, by decide, rfl, fun _ _ => rfl⟩
  | grep =>
    cases known
    exact ⟨Family.grep, by simp, by decide, rfl, fun _ _ => rfl⟩
  | glob =>
    cases known
    exact ⟨Family.glob, by simp, by decide, rfl, fun _ _ => rfl⟩
  | list =>
    cases known
    exact ⟨Family.list, by simp, by decide, rfl, fun _ s => (congrFun List.filterMap_eq_map _).symm⟩
  | fetch =>
    cases known
    exact ⟨Family.fetch, by simp, by decide, rfl, fun _ _ => rfl⟩
  | unschedule =>
    cases known
    exact ⟨Family.unschedule, by simp, by decide, rfl, fun _ _ => rfl⟩
  | notify =>
    cases known
    exact ⟨Family.notify, by simp, by decide, rfl, fun _ _ => rfl⟩
  | skill =>
    cases known
    exact ⟨Family.skill, by simp, by decide, rfl, fun _ _ => rfl⟩
  | telegram =>
    cases known
    exact ⟨Family.telegram, by simp, by decide, rfl, fun _ _ => rfl⟩
  | discord =>
    cases known
    exact ⟨Family.discord, by simp, by decide, rfl, fun _ _ => rfl⟩
  | _ => cases known

end Kind

/-- A block that carries the fields of an action is read as that action, if it has any. -/
theorem reader?_slots {action : Action} {block : Block} (carries : Carries block action.slots)
    (more : action.attributes ≠ []) : ∃ action?, action.kind.reader? = some action? ∧
    action? block = some action := by
  cases action with
  | read window => exact ⟨_, rfl, Family.readAction?_slots carries⟩
  | bash call => exact ⟨_, rfl, Family.bashAction?_slots carries⟩
  | grep search => exact ⟨_, rfl, Family.grepAction?_slots carries⟩
  | glob search => exact ⟨_, rfl, Family.globAction?_slots carries⟩
  | list listing => exact ⟨_, rfl, congrArg some (Family.listAction_slots carries)⟩
  | fetch retrieval =>
    obtain ⟨url, _ | prompt⟩ := retrieval
    · exact ⟨_, rfl, Family.fetchAction?_slots carries⟩
    · exact False.elim (more rfl)
  | unschedule name => exact ⟨_, rfl, Family.unscheduleAction?_slots carries⟩
  | notify notice => exact ⟨_, rfl, Family.notifyAction?_slots carries⟩
  | skill call => exact ⟨_, rfl, Family.skillAction?_slots carries⟩
  | telegram settings =>
    refine ⟨_, rfl, Family.telegramAction?_slots carries ?_⟩
    rintro rfl
    exact more rfl
  | discord settings =>
    refine ⟨_, rfl, Family.discordAction?_slots carries ?_⟩
    rintro rfl
    exact more rfl
  | _ => exact False.elim (more rfl)

namespace Registry

/-- An action that is written as one tag, with its attributes in any order, is read back, and
nothing else is read. -/
theorem extract_attributes (screening : Screening) {action : Action} {attributes : List Attribute}
    (more : action.attributes ≠ []) (order : attributes.Perm action.attributes)
    (plain : ∀ slot ∈ action.slots, ∀ field ∈ slot.2, field.Plain) :
    builtIn.extract screening (attributeTag action.kind.name.toList attributes).text =
      [action] := by
  have fits := action.kind.fits_name
  have letters : ∀ c ∈ action.kind.name.toList, Text.isNameChar c = true := fun c inside =>
    Text.isNameChar_of_isPlainLetter (Repair.isPlain_of_fits fits c inside)
  have carries := carries_attributeTag letters order plain
  obtain ⟨action?, known, made⟩ := reader?_slots carries more
  obtain ⟨family, member, listed, keeps, reads⟩ := Kind.reader?_family known
  have writable : ∀ a ∈ attributes, a.Quotable ∧ PlainPath a.value := by
    intro a inside
    obtain ⟨name, field, slot, rfl⟩ := Action.mem_attributes.mp (order.mem_iff.mp inside)
    have key := Action.key_slots slot
    have value := Field.plainValue_written (plain _ slot field rfl)
    exact ⟨⟨key.starts, key.letters, value.double⟩, value.toPlainPath⟩
  have solitary : (attributeTag action.kind.name.toList attributes).Solitary :=
    solitary_attributeTag fits (fun a inside => (writable a inside).1)
      (fun a inside => (writable a inside).2)
  rw [extract_solitary solitary member listed keeps reads, made]
  rfl

/-- A command with a value that looks like the end of the tag, one that looks like other attributes
and a fence, and the largest number, its attributes backwards. -/
theorem extract_attributes_bash :
    let action : Action := .bash
      { command := "test 1 > 'a b' cmd=x background />"
        timeout := some 18446744073709551615
        background := true
        description := some "~~~ cwd='/tmp' timeout=1 '"
        directory := some "\\" }
    action.attributes ≠ [] ∧ action.attributes.reverse.Perm action.attributes ∧
      (∀ slot ∈ action.slots, ∀ field ∈ slot.2, field.Plain) ∧
      builtIn.extract {} (attributeTag action.kind.name.toList action.attributes.reverse).text =
        [action] := by
  intro action
  have more : action.attributes ≠ [] := by decide
  have order : action.attributes.reverse.Perm action.attributes := List.reverse_perm _
  have plain : ∀ slot ∈ action.slots, ∀ field ∈ slot.2, field.Plain := by decide
  exact ⟨more, order, plain, extract_attributes {} more order plain⟩

example : (attributeTag "list".toList (Action.list ⟨"a b", true⟩).attributes).text =
    "<list path=\"a b\" recursive=\"true\"/>".toList := by
  decide

end Registry

end MarkupActions
