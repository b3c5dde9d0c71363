import MarkupActions.Proofs.Payloads
import MarkupActions.Proofs.Solitary

/-!
# Actions as attributes

Most kinds of action have no need of a body: each of their fields can be an attribute of a tag that
closes itself. An action that is written like that is read back, in whatever order its attributes
stand and whatever their values look like, as long as the values can stand in quotes and need no
decoding.
-/

namespace MarkupActions

open Code (tick)

/-- What an action holds under one name, if an attribute can hold it, too. -/
inductive Field where
  | text (s : String)
  | number (n : UInt64)
  | flag (b : Bool)
deriving DecidableEq

/-- A value that is read as it stands: there is something in it, no white space around it and no
entity in it. -/
structure PlainValue (s : Text) : Prop extends PlainPath s where
  more : s ≠ []
  bare : Text.trim s = s
  sign : '&' ∉ s

instance (s : Text) : Decidable (PlainPath s) :=
  decidable_of_iff ('"' ∉ s ∧ '<' ∉ s ∧ tick ∉ s ∧ '\n' ∉ s)
    ⟨fun ⟨double, tags, ticks, one⟩ => ⟨double, tags, ticks, one⟩,
      fun ⟨double, tags, ticks, one⟩ => ⟨double, tags, ticks, one⟩⟩

instance (s : Text) : Decidable (PlainValue s) :=
  decidable_of_iff (PlainPath s ∧ s ≠ [] ∧ Text.trim s = s ∧ '&' ∉ s)
    ⟨fun ⟨path, more, bare, sign⟩ => ⟨path, more, bare, sign⟩,
      fun ⟨path, more, bare, sign⟩ => ⟨path, more, bare, sign⟩⟩

namespace Field

/-- What stands in quotes: a number in decimal digits, and a yes or no as `true` or `false`. -/
def written : Field → Text
  | text s => s.toList
  | number n => (toString n).toList
  | flag b => (toString b).toList

/-- Texts are to be plain; a number and a yes or no always are. -/
def Plain : Field → Prop
  | text s => PlainValue s.toList
  | _ => True

instance (field : Field) : Decidable field.Plain :=
  match field with
  | text s => inferInstanceAs (Decidable (PlainValue s.toList))
  | number _ => inferInstanceAs (Decidable True)
  | flag _ => inferInstanceAs (Decidable True)

theorem written_number (n : UInt64) : (number n).written = Nat.toDigits 10 n.toNat := by
  have decimal : toString n = Nat.repr n.toNat := rfl
  rw [written, decimal, Nat.toList_repr]

theorem plainValue_of_digits {s : Text} (more : s ≠ []) (digits : ∀ c ∈ s, c.isDigit = true) :
    PlainValue s := by
  have other : ∀ c, c.isDigit = false → c ∉ s := by
    intro c letter inside
    rw [digits c inside] at letter
    cases letter
  have dark : ∀ c ∈ s, Text.isBlank c = false := by
    intro c inside
    have digit := digits c inside
    have small : c.val < 128 := by
      have last : c.val ≤ 57 := by
        simp only [Char.isDigit, Bool.and_eq_true, decide_eq_true_eq] at digit
        exact digit.2
      exact UInt32.lt_of_le_of_lt last (by decide)
    exact Text.not_blank_of_isNameChar (by
      simp [Text.isNameChar, Text.isWord, small, Char.isAlphanum, digit])
  exact
    { double := other _ (by decide)
      tags := other _ (by decide)
      ticks := other _ (by decide)
      one := other _ (by decide)
      more := more
      bare := Text.trim_of_dark dark
      sign := other _ (by decide) }

theorem plainValue_written {field : Field} (plain : field.Plain) : PlainValue field.written := by
  cases field with
  | text s => exact plain
  | number n =>
    rw [written_number]
    exact plainValue_of_digits Nat.toDigits_ne_nil fun c inside =>
      Nat.isDigit_of_mem_toDigits (by decide) (by decide) inside
  | flag b => cases b <;> decide

end Field

namespace Action

/-- The fields of an action under the names of their attributes, those that are absent with nothing.
There are none for an action that needs a body. -/
def slots : Action → List (String × Option Field)
  | .read window =>
    [("path", some (.text window.path)), ("offset", window.offset.map .number),
      ("limit", window.limit.map .number)]
  | .bash call =>
    [("command", some (.text call.command)), ("timeout", call.timeout.map .number),
      ("background", some (.flag call.background)), ("description", call.description.map .text),
      ("cwd", call.directory.map .text)]
  | .grep search =>
    [("pattern", some (.text search.pattern)), ("path", search.path.map .text),
      ("include", search.files.map .text), ("case_insensitive", some (.flag search.ignoreCase))]
  | .glob search => [("pattern", some (.text search.pattern)), ("path", search.path.map .text)]
  | .list listing =>
    [("path", some (.text listing.path)), ("recursive", some (.flag listing.recursive))]
  | .fetch ⟨url, none⟩ => [("url", some (.text url))]
  | .unschedule name => [("name", some (.text name))]
  | .notify notice =>
    [("message", some (.text notice.message)), ("title", notice.title.map .text),
      ("priority", notice.priority.map .text)]
  | .skill call => [("name", some (.text call.name)), ("args", call.arguments.map .text)]
  | .telegram settings =>
    [("bot_token", settings.botToken.map .text), ("chat_id", settings.chatId.map .text),
      ("enabled", settings.enabled.map .flag)]
  | .discord settings =>
    [("bot_token", settings.botToken.map .text), ("channel_id", settings.channelId.map .text),
      ("webhook_url", settings.webhookUrl.map .text), ("enabled", settings.enabled.map .flag)]
  | _ => []

def attributes (action : Action) : List Attribute :=
  action.slots.filterMap fun (name, field?) => field?.map fun field => ⟨name.toList, field.written⟩

end Action

def attributeTag (name : Text) (attributes : List Attribute) : OpeningTag :=
  ⟨name, attributes.flatMap Attribute.written ++ ['/']⟩

section

variable {name : Text} {attributes : List Attribute}

/-- Such a tag is a text that is prepared already if its values can stand in quotes. -/
theorem solitary_attributeTag (fits : Repair.fits name = true)
    (quotable : ∀ a ∈ attributes, a.Quotable)
    (plain : ∀ a ∈ attributes, PlainPath a.value) : (attributeTag name attributes).Solitary := by
  have tagName := TagName.of_fits fits
  have unmarked : ∀ c, c = '<' ∨ c = tick ∨ c = '\n' →
    c ∉ (attributeTag name attributes).attributes := by
    intro c mark inside
    rcases List.mem_append.mp inside with among | last
    · obtain ⟨a, listed, here⟩ := List.mem_flatMap.mp among
      have letters : c ∉ a.name := by
        intro inside
        have letter := (quotable a listed).letters c inside
        rcases mark with rfl | rfl | rfl <;> revert letter <;> decide
      have value : c ∉ a.value := by
        rcases mark with rfl | rfl | rfl
        · exact (plain a listed).tags
        · exact (plain a listed).ticks
        · exact (plain a listed).one
      have marks : c ≠ ' ' ∧ c ≠ '=' ∧ c ≠ '"' := by rcases mark with rfl | rfl | rfl <;> decide
      simp [Attribute.written, letters, value, marks] at here
    · rw [List.mem_singleton.mp last] at mark
      revert mark
      decide
  have head : ∃ d rest, (attributeTag name attributes).attributes = d :: rest ∧
    (d = ' ' ∨ d = '/') := by
    cases attributes with
    | nil => exact ⟨'/', [], rfl, .inr rfl⟩
    | cons a attributes => exact ⟨' ', _, rfl, .inl rfl⟩
  obtain ⟨d, rest, begins, either⟩ := head
  have stop : Text.isNameChar d = false ∧ Attribute.isQuote d = false := by
    rcases either with rfl | rfl <;> decide
  obtain ⟨c, letters, shape, alpha⟩ := tagName.exists_cons
  have read : OpeningTag.read? ((attributeTag name attributes).text ++ []) =
    some (attributeTag name attributes) := by
    have ends : OpeningTag.attributes? none
      ((attributeTag name attributes).attributes ++ '>' :: []) =
        some (attributeTag name attributes).attributes := by
      rw [attributeTag, List.append_assoc, Attribute.attributes?_flatMap_written quotable]
      simp [OpeningTag.attributes?]
    refine OpeningTag.read?_text shape alpha (fun e inside => ?_)
      (by rw [begins, List.cons_append]) stop.1 ends
    exact tagName.letters e (by rw [shape]; exact List.mem_cons_of_mem _ inside)
  have last : (Text.trimEnd (attributeTag name attributes).attributes).getLast? = some '/' := by
    have dark : Text.isBlank '/' = false := by decide
    simp [attributeTag, Text.trimEnd, dark]
  exact
    { read := by rwa [List.append_nil] at read
      slash := by rw [OpeningTag.closesItself, last]; rfl
      unquoted := by rw [begins]; simpa using stop.2
      tags := unmarked _ (.inl rfl)
      ticks := unmarked _ (.inr (.inl rfl))
      one := unmarked _ (.inr (.inr rfl)) }

end

/-- Where no entity begins there is nothing to decode. -/
theorem Entity.decode_of_unsigned {s : Text} (sign : '&' ∉ s) : decode s = s := by
  have entities : ∀ entry ∈ table, entry.1.head? = some '&' := by decide
  refine foldl_eq_self fun entry listed => ?_
  have starts := entities entry listed
  obtain ⟨entity, c⟩ := entry
  cases entity with
  | nil => cases starts
  | cons d entity =>
    obtain rfl : d = '&' := Option.some.inj starts
    show Text.replaceAll ('&' :: entity) [c] s = s
    rw [Text.replaceAll, if_neg (by simp)]
    refine Text.patchAll_of_quiet fun front back whole more => ?_
    obtain ⟨e, back, rfl⟩ := List.exists_cons_of_ne_nil more
    have other : ('&' == e) = false := by
      refine beq_false_of_ne ?_
      rintro rfl
      exact sign (by rw [whole]; simp)
    simp [List.isPrefixOf, other]

def fieldAt (slots : List (String × Option Field)) (name : String) : Option Field :=
  (slots.lookup name).join

/-- A block without a body whose attributes are the fields of some slots. -/
structure Carries (block : Block) (slots : List (String × Option Field)) : Prop where
  raw : ∀ name : String, Attribute.IsKey name.toList →
    block.raw? name = (fieldAt slots name).map Field.written
  plain : ∀ name field, fieldAt slots name = some field → field.Plain
  alone : ∀ name : String, Attribute.IsKey name.toList →
    Attribute.isFlag block.tag.text name.toList = false
  bodyless : block.body? = none

namespace Carries

variable {block : Block} {slots : List (String × Option Field)} {name : String} {list : List String}

theorem find? (carries : Carries block slots) (key : Attribute.IsKey name.toList) :
    Attribute.find? block.tag.text name.toList = (fieldAt slots name).map Field.written :=
  carries.raw name key

theorem trimmed? (carries : Carries block slots) (key : Attribute.IsKey name.toList) :
    Attribute.trimmed? block.tag.text name.toList = (fieldAt slots name).map Field.written := by
  rw [Attribute.trimmed?, carries.find? key]
  cases held : fieldAt slots name with
  | none => rfl
  | some field =>
    have plain := Field.plainValue_written (carries.plain name field held)
    simp [Text.trimmed?, plain.bare, plain.more]

theorem value? (carries : Carries block slots) (keys : ∀ name ∈ list, Attribute.IsKey name.toList) :
    block.value? list = (list.findSome? (fieldAt slots)).map Field.written := by
  have first : (names list).findSome? (Attribute.trimmed? block.tag.text) =
      (list.findSome? (fieldAt slots)).map Field.written := by
    induction list with
    | nil => rfl
    | cons name list ih =>
      have rest := ih fun other inside => keys other (List.mem_cons_of_mem _ inside)
      have split : names (name :: list) = name.toList :: names list := rfl
      rw [split, List.findSome?_cons, List.findSome?_cons,
        carries.trimmed? (keys name List.mem_cons_self), rest]
      cases fieldAt slots name <;> rfl
  exact first

theorem text? (carries : Carries block slots) (keys : ∀ name ∈ list, Attribute.IsKey name.toList)
    {s : String}
    (held : list.findSome? (fieldAt slots) = some (.text s)) :
    block.value? list = some s.toList := by
  rw [carries.value? keys, held]
  rfl

/-- Only under the first of some names there may be something. -/
theorem value?_first (carries : Carries block slots)
    (keys : ∀ other ∈ name :: list, Attribute.IsKey other.toList)
    {s? : Option String} (held : fieldAt slots name = s?.map .text)
    (others : list.findSome? (fieldAt slots) = none) :
    block.value? (name :: list) = s?.map String.toList := by
  rw [carries.value? keys, List.findSome?_cons, held, others]
  cases s? <;> rfl

theorem string? (carries : Carries block slots)
    (keys : ∀ other ∈ name :: list, Attribute.IsKey other.toList)
    {s? : Option String} (held : fieldAt slots name = s?.map .text)
    (others : list.findSome? (fieldAt slots) = none) :
    block.string? (name :: list) = s? := by
  rw [Block.string?, carries.value?_first keys held others]
  cases s? with
  | none => rfl
  | some s => simp

theorem bodyText? (carries : Carries block slots) : block.bodyText? = none := by
  rw [Block.bodyText?, carries.bodyless]
  rfl

/-- The texts of the slots need no decoding. -/
theorem unsigned (carries : Carries block slots) {s : String}
    (held : list.findSome? (fieldAt slots) = some (.text s)) :
    '&' ∉ s.toList := by
  obtain ⟨name, _, found⟩ := List.exists_of_findSome?_eq_some held
  have plain : (Field.text s).Plain := carries.plain name _ found
  exact PlainValue.sign plain

theorem valueOrBody? (carries : Carries block slots)
    (keys : ∀ name ∈ list, Attribute.IsKey name.toList) {s : String}
    (held : list.findSome? (fieldAt slots) = some (.text s)) :
    block.valueOrBody? list = some s.toList := by
  rw [Block.valueOrBody?, carries.text? keys held, Option.map_some,
    Entity.decode_of_unsigned (carries.unsigned held)]
  rfl

theorem number? (carries : Carries block slots) (key : Attribute.IsKey name.toList)
    {n? : Option UInt64}
    (held : fieldAt slots name = n?.map .number) : block.number? name = n? := by
  rw [Block.number?, Attribute.number?, carries.trimmed? key, held]
  cases n? with
  | none => rfl
  | some n => simp [Field.written_number, Attribute.parseNumber?_toDigits]

theorem holds (carries : Carries block slots) (key : Attribute.IsKey name.toList) {b : Bool}
    (held : fieldAt slots name = some (.flag b)) : block.holds name = b := by
  have yes : ["true".toList, "1".toList, "yes".toList].contains
    (Text.lower (Text.trim (Field.flag b).written)) = b := by
    cases b <;> decide
  rw [Block.holds, Attribute.holds, carries.find? key, held]
  exact yes

theorem not_holds (carries : Carries block slots) (key : Attribute.IsKey name.toList)
    (absent : fieldAt slots name = none) :
    block.holds name = false := by
  rw [Block.holds, Attribute.holds, carries.find? key, absent]
  exact carries.alone name key

theorem decision? (carries : Carries block slots) (key : Attribute.IsKey name.toList)
    {b? : Option Bool}
    (held : fieldAt slots name = b?.map .flag) : block.decision? name = b? := by
  rw [Block.decision?, Attribute.decision?, carries.find? key, held]
  cases b? with
  | none => rfl
  | some b => exact congrArg some (carries.holds key held)

end Carries

end MarkupActions
