import Mathlib.Data.List.Basic
import MarkupActions.Family.Basic
import MarkupActions.Proofs.Patching
import MarkupActions.Proofs.Styles

/-!
# Attributes in double quotes

An attribute is read back from what is written of it, whatever its value looks like and whatever
follows it. So a tag has the attributes that were written into it and no others; none of their names
stands alone; and a number that is written in decimal is the number that is read.
-/

namespace MarkupActions

namespace Text

variable {p : Char → Bool}

/-- A piece ends where the first character with the property stands. -/
theorem splitBy_append {v s : Text} {d : Char} (apart : ∀ c ∈ v, p c = false) (stop : p d = true) :
    splitBy p (v ++ d :: s) = v :: splitBy p s := by
  induction v with
  | nil => simp [splitBy, stop]
  | cons c v ih =>
    have rest := ih fun e inside => apart e (List.mem_cons_of_mem _ inside)
    rw [List.cons_append, splitBy, if_neg (by simp [apart c List.mem_cons_self]), rest]

/-- A trimmed text has no white space around it that could be taken off. -/
theorem trim_of_dark {s : Text} (dark : ∀ c ∈ s, isBlank c = false) : trim s = s := by
  have front : trimStart s = s := by
    have kept := @dropWhile_exact isBlank [] s (by simp)
    cases s with
    | nil => rfl
    | cons c s => exact kept (by simp [dark c List.mem_cons_self])
  have back : s.reverse.dropWhile isBlank = s.reverse := by
    cases last : s.reverse with
    | nil => rfl
    | cons c r =>
      have inside : c ∈ s := List.mem_reverse.mp (by rw [last]; exact List.mem_cons_self)
      simp [dark c inside]
  rw [trim, front, trimEnd, back, List.reverse_reverse]

theorem numberOf_digits {s : Text} (digits : ∀ c ∈ s, c.isDigit = true) :
    numberOf 10 s = Nat.ofDigitChars 10 s 0 := by
  rw [numberOf, Nat.ofDigitChars_eq_foldl]
  refine List.foldl_ext _ _ 0 fun n c inside => ?_
  simp [digitValue?, digits c inside]

end Text

namespace Attribute

/-- An attribute as it is written, a blank in front and the value in double quotes. -/
def written (a : Attribute) : Text := ' ' :: (a.name ++ '=' :: '"' :: (a.value ++ ['"']))

structure Quotable (a : Attribute) : Prop where
  starts : a.name.head?.any startsName = true
  letters : ∀ c ∈ a.name, Text.isNameChar c = true
  double : '"' ∉ a.value

variable {a : Attribute} {attributes : List Attribute}

/-- What comes up to the end of a tag, its quoted strings passed over. -/
theorem attributes?_written (quotable : a.Quotable) (s : Text) :
    OpeningTag.attributes? none (a.written ++ s) = (OpeningTag.attributes? none s).map
      (a.written ++ ·) := by
  have value : ∀ v : Text, '"' ∉ v → OpeningTag.attributes? (some '"') (v ++ '"' :: s) =
      (OpeningTag.attributes? none s).map (v ++ '"' :: ·) := by
    intro v unquoted
    induction v with
    | nil => simp [OpeningTag.attributes?]
    | cons c v ih =>
      simp only [List.mem_cons, not_or] at unquoted
      simp [OpeningTag.attributes?, Ne.symm unquoted.1, ih unquoted.2, Function.comp_def]
  have name : ∀ v t : Text, (∀ c ∈ v, Text.isNameChar c = true) →
      OpeningTag.attributes? none (v ++ t) = (OpeningTag.attributes? none t).map (v ++ ·) := by
    intro v t letters
    induction v with
    | nil => simp
    | cons c v ih =>
      have plain := Text.not_mark_of_isNameChar (letters c List.mem_cons_self)
      have other : c ≠ '>' ∧ c ≠ '<' ∧ c ≠ '"' ∧ c ≠ '\'' := by
        refine ⟨?_, ?_, ?_, ?_⟩ <;> rintro rfl <;> cases plain
      have rest := ih fun d inside => letters d (List.mem_cons_of_mem _ inside)
      simp [OpeningTag.attributes?, other, rest, Function.comp_def]
  have shape : a.written ++ s = ' ' :: (a.name ++ '=' :: '"' :: (a.value ++ '"' :: s)) := by
    simp [written]
  rw [shape, OpeningTag.attributes?]
  simp [name _ _ quotable.letters, OpeningTag.attributes?, value _ quotable.double, written,
    Function.comp_def]

theorem attributes?_flatMap_written (quotable : ∀ a ∈ attributes, a.Quotable) (s : Text) :
    OpeningTag.attributes? none (attributes.flatMap written ++ s) =
      (OpeningTag.attributes? none s).map (attributes.flatMap written ++ ·) := by
  induction attributes with
  | nil => simp
  | cons a attributes ih =>
    rw [List.flatMap_cons, List.append_assoc, attributes?_written (quotable a List.mem_cons_self),
      ih fun b inside => quotable b (List.mem_cons_of_mem _ inside)]
    simp [Function.comp_def]

/-- An attribute that can stand in double quotes is one of that style. -/
theorem fits_double (quotable : a.Quotable) : Styled.Fits ⟨a, .double⟩ :=
  { starts := quotable.starts
    letters := fun c inside => continuesName_of_isNameChar (quotable.letters c inside)
    admits := quotable.double }

/-- A tag with some attributes, its name in front and `rest` behind. -/
theorem all_tag {name rest : Text} (letters : ∀ c ∈ name, Text.isNameChar c = true)
    (quotable : ∀ a ∈ attributes, a.Quotable) (ends : rest = ['>'] ∨ rest = ['/', '>']) :
    all ('<' :: (name ++ (attributes.flatMap written ++ rest))) = attributes := by
  obtain ⟨slash, rfl⟩ : ∃ slash, rest = tagEnd slash := by
    rcases ends with rfl | rfl
    · exact ⟨false, rfl⟩
    · exact ⟨true, rfl⟩
  have fits : ∀ b ∈ attributes.map fun a => (⟨a, .double⟩ : Styled), b.Fits := by
    intro b inside
    obtain ⟨a, listed, rfl⟩ := List.mem_map.mp inside
    exact fits_double (quotable a listed)
  have whole : ∀ b ∈ attributes.map fun a => (⟨a, .double⟩ : Styled), ¬ b.Broken := by
    rintro b inside ⟨bare, _⟩
    obtain ⟨a, _, rfl⟩ := List.mem_map.mp inside
    cases bare
  have read := all_styledTag letters fits whole slash
  rw [styledTag, List.flatMap_map, List.map_map] at read
  exact read.trans (List.map_id attributes)

structure IsKey (name : Text) : Prop where
  starts : name.head?.any startsName = true
  letters : ∀ c ∈ name, Text.isNameChar c = true
  same : name.map nameKey = name

instance (name : Text) : Decidable (IsKey name) :=
  decidable_of_iff (name.head?.any startsName = true ∧ (∀ c ∈ name, Text.isNameChar c = true) ∧
    name.map nameKey = name)
    ⟨fun ⟨starts, letters, same⟩ => ⟨starts, letters, same⟩, fun ⟨starts, letters, same⟩ =>
      ⟨starts, letters, same⟩⟩

theorem sameName_keys {name other : Text} (key : IsKey name) (key' : IsKey other) :
    sameName name other = true ↔ name = other := by
  rw [sameName, key.same, key'.same, beq_iff_eq]

/-- Each attribute is found by its name if there is no other of that name. -/
theorem find?_of_mem {tag name value : Text} (keys : ∀ a ∈ attributes, IsKey a.name)
    (distinct : (attributes.map (·.name)).Nodup) (whole : all tag = attributes)
    (inside : ⟨name, value⟩ ∈ attributes) :
    find? tag name = some value := by
  have found : attributes.find? (sameName ·.name name) = some ⟨name, value⟩ := by
    have key := keys _ inside
    clear whole
    induction attributes with
    | nil => cases inside
    | cons a attributes ih =>
      rw [List.map_cons, List.nodup_cons] at distinct
      rcases List.mem_cons.mp inside with rfl | later
      · simp [(sameName_keys key key).mpr rfl]
      · have other : sameName a.name name = false := by
          rw [Bool.eq_false_iff, ne_eq, sameName_keys (keys a List.mem_cons_self) key]
          intro same
          exact distinct.1 (same ▸ List.mem_map.mpr ⟨_, later, rfl⟩)
        rw [List.find?_cons_of_neg (by simp [other])]
        exact ih (fun b among => keys b (List.mem_cons_of_mem _ among)) distinct.2 later
  rw [find?, whole, found]
  rfl

/-- No attribute is found by a name that none has. -/
theorem find?_of_absent {tag name : Text} (keys : ∀ a ∈ attributes, IsKey a.name) (key : IsKey name)
    (whole : all tag = attributes) (absent : name ∉ attributes.map (·.name)) :
    find? tag name = none := by
  have none : attributes.find? (sameName ·.name name) = none := by
    refine List.find?_eq_none.mpr fun a inside same => ?_
    rw [sameName_keys (keys a inside) key] at same
    exact absent (List.mem_map.mpr ⟨a, inside, same⟩)
  rw [find?, whole, none]
  rfl

theorem not_isQuote {c : Char} (named : Text.isNameChar c = true) : isQuote c = false := by
  have plain := Text.not_mark_of_isNameChar named
  cases quote : isQuote c with
  | false => rfl
  | true =>
    have either : c = '"' ∨ c = '\'' := by simpa [isQuote] using quote
    rcases either with rfl | rfl
    · cases plain
    · cases plain

theorem withoutQuoted_append {v : Text} (unquoted : ∀ c ∈ v, isQuote c = false) (s : Text) :
    withoutQuoted (v ++ s) = v ++ withoutQuoted s := by
  refine Text.patchAll_append fun a b whole more => ?_
  obtain ⟨c, b, rfl⟩ := List.exists_cons_of_ne_nil more
  have plain := unquoted c (by rw [whole]; simp)
  simp [plain]

/-- Without their quotes attributes are names with an equals sign. -/
theorem withoutQuoted_written (quotable : a.Quotable) (s : Text) :
    withoutQuoted (a.written ++ s) = ' ' :: (a.name ++ '=' :: ' ' :: withoutQuoted s) := by
  have unquoted : ∀ c ∈ ' ' :: (a.name ++ ['=']), isQuote c = false := by
    intro c inside
    rcases List.mem_cons.mp inside with rfl | inside
    · decide
    · rcases List.mem_append.mp inside with name | equals
      · exact not_isQuote (quotable.letters c name)
      · rw [List.mem_singleton.mp equals]
        decide
  have shape : a.written ++ s = (' ' :: (a.name ++ ['='])) ++
    (('"' :: (a.value ++ ['"'])) ++ s) := by simp [written]
  have double : isQuote '"' = true := by decide
  have value : withoutQuoted (('"' :: (a.value ++ ['"'])) ++ s) = [' '] ++ withoutQuoted s := by
    refine Text.patchAll_of_some ?_ (by simp)
    simp [double, quoted?_append quotable.double]
  rw [shape, withoutQuoted_append unquoted, value]
  simp

def partsWords (c : Char) : Bool := Text.isBlank c || c == '/' || c == '>'

theorem not_partsWords {c : Char} (named : Text.isNameChar c = true) : partsWords c = false := by
  have plain := Text.not_mark_of_isNameChar named
  have slash : c ≠ '/' := by
    rintro rfl
    cases plain
  have bracket : c ≠ '>' := by
    rintro rfl
    cases plain
  simp [partsWords, Text.not_blank_of_isNameChar named, slash, bracket]

/-- The words of attributes all end in an equals sign. -/
theorem words_flatMap_written (quotable : ∀ a ∈ attributes, a.Quotable) (s : Text) :
    Text.splitBy partsWords (withoutQuoted (attributes.flatMap written ++ s)) =
      attributes.flatMap (fun a => [[], a.name ++ ['=']]) ++ Text.splitBy partsWords
        (withoutQuoted s) := by
  induction attributes with
  | nil => rfl
  | cons a attributes ih =>
    have here := quotable a List.mem_cons_self
    have blank : partsWords ' ' = true := by decide
    have word : ∀ c ∈ a.name ++ ['='], partsWords c = false := by
      intro c inside
      rcases List.mem_append.mp inside with name | equals
      · exact not_partsWords (here.letters c name)
      · rw [List.mem_singleton.mp equals]
        decide
    have pieces : ∀ t, Text.splitBy partsWords (' ' :: (a.name ++ '=' :: ' ' :: t)) =
        [] :: (a.name ++ ['=']) :: Text.splitBy partsWords t := by
      intro t
      have cut := Text.splitBy_append (s := t) word blank
      rw [List.append_assoc] at cut
      exact (Text.splitBy_append (v := []) (by simp) blank).trans (congrArg _ cut)
    rw [List.flatMap_cons, List.append_assoc, withoutQuoted_written here, pieces,
      ih fun b inside => quotable b (List.mem_cons_of_mem _ inside)]
    rfl

/-- A name with an equals sign behind it is not a name without one. -/
theorem sameName_equals {sought : Text} (plain : '=' ∉ sought) (name : Text) :
    sameName (name ++ ['=']) sought = false := by
  rw [sameName, beq_eq_false_iff_ne]
  intro same
  have key : nameKey '=' = '=' := by decide
  have inside : '=' ∈ sought.map nameKey := by
    rw [← same]
    simp [key]
  obtain ⟨c, listed, equals⟩ := List.mem_map.mp inside
  by_cases hyphen : c = '-'
  · subst hyphen
    revert equals
    decide
  · rw [nameKey, if_neg hyphen] at equals
    rw [Text.eq_of_toLower_eq (by decide) equals] at listed
    exact plain listed

/-- In a tag with attributes none but these names stand, and none of them alone. -/
theorem isFlag_tag {name sought rest : Text} (letters : ∀ c ∈ name, Text.isNameChar c = true)
    (quotable : ∀ a ∈ attributes, a.Quotable) (ends : rest = ['>'] ∨ rest = ['/', '>'])
    (more : sought ≠ [])
    (plain : '=' ∉ sought) : isFlag ('<' :: (name ++ (attributes.flatMap written ++ rest))) sought =
    false := by
  have empty : sameName [] sought = false := by simp [sameName, more]
  have word : ∀ c ∈ '<' :: name, partsWords c = false ∧ isQuote c = false := by
    intro c inside
    rcases List.mem_cons.mp inside with rfl | inside
    · decide
    · exact ⟨not_partsWords (letters c inside), not_isQuote (letters c inside)⟩
  have last : (∃ d w, withoutQuoted rest = d :: w ∧ partsWords d = true) ∧
      ∀ piece ∈ Text.splitBy partsWords (withoutQuoted rest), piece = [] := by
    rcases ends with rfl | rfl
    · exact ⟨⟨'>', [], by decide +kernel, by decide⟩, by decide +kernel⟩
    · exact ⟨⟨'/', ['>'], by decide +kernel, by decide⟩, by decide +kernel⟩
  obtain ⟨d, w, whole, stop⟩ :
      ∃ d w, withoutQuoted (attributes.flatMap written ++ rest) = d :: w ∧ partsWords d = true := by
    cases attributes with
    | nil => exact last.1
    | cons a attributes =>
      rw [List.flatMap_cons, List.append_assoc,
        withoutQuoted_written (quotable a List.mem_cons_self)]
      exact ⟨_, _, rfl, by decide⟩
  have behind : [] :: Text.splitBy partsWords w = Text.splitBy partsWords (d :: w) :=
    (Text.splitBy_append (v := []) (by simp) stop).symm
  have none : ([] :: Text.splitBy partsWords w).any (sameName · sought) = false := by
    rw [behind, ← whole, words_flatMap_written quotable, List.any_append, Bool.or_eq_false_iff]
    constructor
    · simp [empty, sameName_equals plain]
    · refine List.any_eq_false.mpr fun piece inside => ?_
      rw [last.2 piece inside, empty]
      decide
  have cut : Text.splitBy partsWords (withoutQuoted
    ('<' :: (name ++ (attributes.flatMap written ++ rest)))) =
      ('<' :: name) :: Text.splitBy partsWords w := by
    rw [← List.cons_append, withoutQuoted_append fun c inside => (word c inside).2, whole]
    exact Text.splitBy_append (fun c inside => (word c inside).1) stop
  have tail : isFlag ('<' :: (name ++ (attributes.flatMap written ++ rest))) sought =
      (Text.splitBy partsWords (withoutQuoted
        ('<' :: (name ++ (attributes.flatMap written ++ rest))))).tail.any (sameName · sought) :=
          rfl
  rw [List.any_cons, Bool.or_eq_false_iff] at none
  rw [tail, cut]
  exact none.2

/-- The number that is written in decimal is read. -/
theorem parseNumber?_toDigits (n : UInt64) : parseNumber? (Nat.toDigits 10 n.toNat) = some n := by
  have digits : ∀ c ∈ Nat.toDigits 10 n.toNat, c.isDigit = true := fun c inside =>
    Nat.isDigit_of_mem_toDigits (by decide) (by decide) inside
  have value : Text.numberOf 10 (Nat.toDigits 10 n.toNat) = n.toNat := by
    rw [Text.numberOf_digits digits, Nat.ofDigitChars_ten_toDigits]
  have more : (Nat.toDigits 10 n.toNat).isEmpty = false := by simp
  have plus : ∀ rest, Nat.toDigits 10 n.toNat ≠ '+' :: rest := by
    intro rest whole
    rw [whole] at digits
    cases digits '+' List.mem_cons_self
  have all : (Nat.toDigits 10 n.toNat).all Char.isDigit = true := List.all_eq_true.mpr digits
  rw [parseNumber?]
  · simp only [more, all, value, Bool.not_true, Bool.or_self, Bool.false_eq_true, if_false,
      if_pos n.toNat_lt_size, UInt64.ofNat_toNat]
  · exact plus

end Attribute

end MarkupActions
