import Mathlib.Data.List.Infix
import MarkupActions.Family.Files
import MarkupActions.Proofs.Styles
import MarkupActions.Proofs.WellFormed

/-!
# Edits of a payload's own file

The screening has an eye of its own for edit tags: each goes from its name to the first `>`,
whatever the quotes, and what it says of its path counts even if that is nothing. Where an edit tag
is in plain sight it sees the same tag, and the same file, as the reader of edits. Edits that are
out of its sight are no less edits.
-/

namespace MarkupActions

namespace Text

theorem trim_trim (s : Text) : trim (trim s) = trim s := by
  by_cases none : trim s = []
  · rw [none]
    rfl
  · have neat := neat_trim none
    have head : (trim s).head?.any isBlank = false := by
      cases first : (trim s).head? with
      | none => rfl
      | some c => exact neat.head c first
    have last : (trim s).getLast?.any isBlank = false := by
      cases final : (trim s).getLast? with
      | none => rfl
      | some c => exact neat.last c final
    have same := @trim_append [] (trim s) [] (by simp) (by simp) none head last
    rwa [List.nil_append, List.append_nil] at same

end Text

namespace Attribute

theorem bareLength_le (s : Text) : bareLength s ≤ s.length := by
  induction s with
  | nil => exact Nat.le_refl 0
  | cons c s ih =>
    cases s with
    | nil =>
      simp only [bareLength]
      split <;> simp
    | cons d s =>
      rw [List.length_cons, bareLength]
      split
      · omega
      · split <;> omega

/-- No value without quotes takes in a `>`. -/
theorem bareLength_concat (s : Text) : bareLength (s ++ ['>']) = bareLength s := by
  have bracket : isBare '>' = false := by decide
  induction s with
  | nil => rfl
  | cons c s ih =>
    cases s with
    | nil => simp [bareLength, bracket]
    | cons d s =>
      simp only [List.cons_append, bareLength] at ih ⊢
      rw [ih]

theorem quoted?_concat {quote : Char} (other : quote ≠ '>') (s : Text) :
    quoted? quote (s ++ ['>']) = quoted? quote s := by
  induction s with
  | nil => simp [quoted?, Ne.symm other]
  | cons c s ih => simp [quoted?, ih]

theorem value?_concat (s : Text) : value? (s ++ ['>']) = value? s := by
  cases s with
  | nil => rfl
  | cons c s =>
    have bare := bareLength_concat (c :: s)
    have cut : (c :: s ++ ['>']).take (bareLength (c :: s)) = (c :: s).take (bareLength (c :: s)) :=
      List.take_append_of_le_length (bareLength_le (c :: s))
    rw [List.cons_append] at bare cut ⊢
    by_cases quote : isQuote c
    · have other : c ≠ '>' := by
        rintro rfl
        cases quote
      simp [value?, quote, quoted?_concat other]
    · simp [value?, quote, bare, cut]

theorem read?_concat {s : Text} (more : s ≠ []) : read? (s ++ ['>']) = read? s := by
  obtain ⟨c, s, rfl⟩ := List.exists_cons_of_ne_nil more
  have names : (['>'] : Text).head?.any continuesName = false :=
    (by decide : continuesName '>' = false)
  have blanks : (['>'] : Text).head?.any Text.isBlank = false :=
    (by decide : Text.isBlank '>' = false)
  have short : (c :: s.takeWhile continuesName).length ≤ (c :: s).length := by
    simpa using (List.takeWhile_sublist continuesName).length_le
  have cut : (c :: s ++ ['>']).drop (c :: s.takeWhile continuesName).length =
      (c :: s).drop (c :: s.takeWhile continuesName).length ++ ['>'] :=
        List.drop_append_of_le_length short
  have behind : Text.trimStart ((c :: (s ++ ['>'])).drop (c :: s.takeWhile continuesName).length) =
      Text.trimStart ((c :: s).drop (c :: s.takeWhile continuesName).length) ++ ['>'] := by
    rw [← List.cons_append, cut]
    exact Text.dropWhile_append_of_stop blanks
  simp only [List.cons_append, read?, Text.takeWhile_append_of_stop names, behind]
  cases started : startsName c with
  | false => rfl
  | true =>
    simp only [Bool.not_true, Bool.false_eq_true, if_false]
    cases Text.trimStart ((c :: s).drop (c :: s.takeWhile continuesName).length) with
    | nil => rfl
    | cons d tail =>
      by_cases equals : d = '='
      · subst equals
        have trimmed : Text.trimStart (tail ++ ['>']) = Text.trimStart tail ++ ['>'] :=
          Text.dropWhile_append_of_stop blanks
        simp only [List.cons_append, trimmed, value?_concat, List.length_cons, List.length_append,
          List.length_nil]
        simp
      · simp [equals]

theorem all_concat (s : Text) : all (s ++ ['>']) = all s := by
  induction size : s.length using Nat.strongRecOn generalizing s with
  | ind size ih =>
    subst size
    cases s with
    | nil => exact all_of_other (by decide) []
    | cons c s =>
      have same := read?_concat (List.cons_ne_nil c s)
      rw [List.cons_append] at same ⊢
      rw [all, all, same]
      cases read? (c :: s) with
      | none => exact ih s.length (by simp) s rfl
      | some found =>
        obtain ⟨a, n⟩ := found
        simp only [List.cons.injEq, true_and]
        by_cases inside : n - 1 ≤ s.length
        · rw [List.drop_append_of_le_length inside]
          exact ih _ (by rw [List.length_drop, List.length_cons]; omega) _ rfl
        · have past : (s ++ ['>']).length ≤ n - 1 := by
            rw [List.length_append, List.length_singleton]
            omega
          rw [List.drop_of_length_le past, List.drop_of_length_le (by omega)]

end Attribute

namespace Screening

open Family (pathNames)

variable {screening : Screening} {tag : OpeningTag} {before rest s t path : Text}

/-- An edit tag at the head of a text that names the file that a path names, as edits are read. -/
structure EditsFile (path : Text) (tag : OpeningTag) (rest : Text) : Prop where
  read : OpeningTag.read? (tag.text ++ rest) = some tag
  key : tag.key = "edit".toList
  names : ∃ file, Attribute.first? tag.text (names pathNames) = some file ∧
    normalPath file = normalPath path

/-- Whether a tag is in plain sight behind some text: white space parts its name from its
attributes, no `>` stands in them, a path that they give is not blank, and no edit tag is open in
front of it. -/
structure InPlainSight (before : Text) (tag : OpeningTag) : Prop where
  parted : tag.attributes.head?.any Text.isBlank = true
  unbroken : '>' ∉ tag.attributes
  filled : ∀ v, Attribute.find? tag.text "path".toList = some v → Text.trim v ≠ []
  outside : ∀ a b, before = a ++ b → '>' ∉ b → editTag? b = none

theorem normalPath_trim (s : Text) : normalPath (Text.trim s) = normalPath s := by
  rw [normalPath, normalPath, Text.trim_trim]

/-- What an edit tag is as the screening sees it. -/
theorem editTag?_eq_some : editTag? s = some t ↔ ∃ front c rest, s = front ++ c :: rest ∧
    List.Forall₂ (fun n c => Text.sameFolded c n = true) "<edit".toList front ∧
      Text.isBlank c = true ∧
      t = front ++ c :: rest.takeWhile (· != '>') := by
  have cut : ∀ {front : Text}, List.Forall₂
    (fun n c => Text.sameFolded c n = true) "<edit".toList front →
      ∀ rest, (front ++ rest).take 5 = front := by
    intro front matched rest
    have size : front.length = 5 := matched.length_eq.symm
    rw [← size, List.take_left]
  constructor
  · intro found
    unfold editTag? at found
    split at found
    · rename_i c rest after
      split at found
      · rename_i blank
        obtain ⟨front, rfl, matched⟩ := Text.afterFolded?_eq_some.mp after
        rw [cut matched] at found
        exact ⟨front, c, rest, rfl, matched, blank, (Option.some.inj found).symm⟩
      · cases found
    · cases found
  · rintro ⟨front, c, rest, rfl, matched, blank, rfl⟩
    have after : Text.afterFolded? "<edit".toList (front ++ c :: rest) = some (c :: rest) :=
      Text.afterFolded?_eq_some.mpr ⟨front, rfl, matched⟩
    simp only [editTag?, after, blank, if_true, cut matched]

theorem isPlain_edit : Text.IsPlain "edit".toList := by
  unfold Text.IsPlain
  decide

/-- The name of an edit tag is one bracket and letters. -/
theorem letters_of_matched {front : Text}
    (matched : List.Forall₂ (fun n c => Text.sameFolded c n = true) "<edit".toList front) :
    ∃ h letters, front = h :: letters ∧ h ≠ '>' ∧ ∀ c ∈ letters, Text.isNameChar c = true := by
  obtain ⟨h, letters, bracket, name, rfl⟩ := List.forall₂_cons_left_iff.mp matched
  refine ⟨h, letters, rfl, ?_, Text.isNameChar_of_matched isPlain_edit name⟩
  rintro rfl
  revert bracket
  decide

theorem takeWhile_bracket {front : Text} (unbroken : '>' ∉ front) (rest : Text) :
    (front ++ '>' :: rest).takeWhile (· != '>') = front := by
  refine Text.takeWhile_exact (fun c inside => ?_) (by simp)
  rw [bne_iff_ne]
  rintro rfl
  exact unbroken inside

/-- An edit tag that begins in front of a bracket has its end there too, unless it is left open. -/
theorem exists_end_of_editTag? (more : before ≠ []) (ended : '>' ∉ before → editTag? before = none)
    (found : editTag? (before ++ '<' :: s) = some t) : ∃ back, before = t ++ '>' :: back := by
  obtain ⟨front, d, rest, whole, matched, blank, rfl⟩ := editTag?_eq_some.mp found
  obtain ⟨h, letters, rfl, other, named⟩ := letters_of_matched matched
  rcases Text.append_eq_append_cons whole with ⟨m, rfl, rfl⟩ | ⟨m, across, behind⟩
  · by_cases ends : '>' ∈ m
    · obtain ⟨m, back, rfl, unbroken⟩ := List.eq_append_cons_of_mem ends
      have run : (m ++ '>' :: back ++ '<' :: s).takeWhile (· != '>') = m := by
        rw [List.append_assoc]
        exact takeWhile_bracket unbroken (back ++ '<' :: s)
      rw [run]
      exact ⟨back, by simp⟩
    · have unbroken : '>' ∉ h :: letters ++ d :: m := by
        simp only [List.cons_append, List.mem_cons, List.mem_append, not_or]
        refine ⟨Ne.symm other, fun among => ?_, ?_, ends⟩
        · exact absurd (named _ among) (by decide)
        · rintro rfl
          exact absurd blank (by decide)
      have seen := editTag?_eq_some.mpr ⟨_, d, m, rfl, matched, blank, rfl⟩
      rw [ended unbroken] at seen
      cases seen
  · -- the bracket would be a letter of the name or the white space behind it
    obtain ⟨c, before, rfl⟩ := List.exists_cons_of_ne_nil more
    have tail := (List.cons.inj across).2
    cases m with
    | nil =>
      obtain ⟨rfl, _⟩ := List.cons.inj behind
      exact absurd blank (by decide)
    | cons e m =>
      obtain ⟨rfl, _⟩ := List.cons.inj behind
      exact absurd (named '<' (by rw [tail]; simp)) (by decide)

/-- An edit tag behind others is listed if none of them is left open. -/
theorem mem_editTags (outside : ∀ a b, before = a ++ b → '>' ∉ b → editTag? b = none)
    (here : editTag? ('<' :: s) = some t) : t ∈ editTags (before ++ '<' :: s) := by
  induction size : before.length using Nat.strongRecOn generalizing before with
  | ind size ih =>
    subst size
    cases before with
    | nil =>
      rw [List.nil_append, editTags, here]
      exact List.mem_cons_self
    | cons c before =>
      rw [List.cons_append, editTags]
      cases found : editTag? (c :: (before ++ '<' :: s)) with
      | none =>
        have later : ∀ a b, before = a ++ b → '>' ∉ b → editTag? b = none := fun a b split =>
          outside (c :: a) b (by rw [split]; rfl)
        exact ih before.length (by simp) later rfl
      | some first =>
        obtain ⟨back, split⟩ := exists_end_of_editTag? (List.cons_ne_nil c before)
          (outside [] _ rfl) found
        have some' : 0 < first.length := by
          obtain ⟨front, d, rest, _, _, _, rfl⟩ := editTag?_eq_some.mp found
          simp only [List.length_append, List.length_cons]
          omega
        have later : ∀ a b, '>' :: back = a ++ b → '>' ∉ b → editTag? b = none := fun a b split' =>
          outside (first ++ a) b (by rw [split, split', List.append_assoc])
        have less : ('>' :: back).length < (c :: before).length := by
          rw [split, List.length_append]
          omega
        have whole : c :: (before ++ '<' :: s) = first ++ (('>' :: back) ++ '<' :: s) := by
          rw [← List.cons_append, split, List.append_assoc]
        have next := Text.drop_front whole some'
        simp only [next]
        exact List.mem_cons_of_mem _ (ih _ less later rfl)

/-- An edit tag in plain sight ends for the screening where it ends. -/
theorem editTag?_text (key : tag.key = "edit".toList)
    (parted : tag.attributes.head?.any Text.isBlank = true)
    (unbroken : '>' ∉ tag.attributes) (rest : Text) :
    editTag? (tag.text ++ rest) = some ('<' :: (tag.name ++ tag.attributes)) := by
  obtain ⟨name, attributes⟩ := tag
  cases attributes with
  | nil => cases parted
  | cons c attributes =>
    simp only [List.mem_cons, not_or] at unbroken
    have matched : List.Forall₂ (fun n c => Text.sameFolded c n = true) "edit".toList name :=
      Text.matched_of_lower isPlain_edit key
    refine editTag?_eq_some.mpr ⟨'<' :: name, c, attributes ++ '>' :: rest, ?_,
      .cons (by decide) matched, parted, ?_⟩
    · simp [OpeningTag.text]
    · rw [takeWhile_bracket unbroken.2]
      rfl

theorem first?_pathNames (s : Text) : Attribute.first? s (names pathNames) =
    (Attribute.trimmed? s "path".toList).or (Attribute.trimmed? s "file".toList) := by
  rw [Attribute.first?, names, pathNames, List.map_cons, List.map_cons, List.map_nil,
    List.findSome?_cons, List.findSome?_cons, List.findSome?_nil]
  cases Attribute.trimmed? s "path".toList with
  | some v => rfl
  | none => cases Attribute.trimmed? s "file".toList <;> rfl

/-- Both readers take the same file from a tag whose path is not blank. -/
theorem editTarget?_text {file : Text}
    (filled : ∀ v, Attribute.find? tag.text "path".toList = some v → Text.trim v ≠ [])
    (named : Attribute.first? tag.text (names pathNames) = some file) :
    ∃ written, editTarget? ('<' :: (tag.name ++ tag.attributes)) = some written ∧
      file = Text.trim written := by
  have same : ∀ name, Attribute.find? ('<' :: (tag.name ++ tag.attributes)) name =
    Attribute.find? tag.text name := by
    intro name
    rw [Attribute.find?, Attribute.find?, ← Attribute.all_concat]
    rfl
  rw [editTarget?, same, same]
  rw [first?_pathNames, Attribute.trimmed?] at named
  cases found : Attribute.find? tag.text "path".toList with
  | some v =>
    have value : Text.trimmed? v = some (Text.trim v) := by simp [Text.trimmed?, filled v found]
    rw [found, Option.bind_some, value] at named
    exact ⟨v, rfl, (Option.some.inj named).symm⟩
  | none =>
    rw [found] at named
    obtain ⟨v, held, trimmed⟩ := Option.bind_eq_some_iff.mp named
    refine ⟨v, held, ?_⟩
    unfold Text.trimmed? at trimmed
    simp only at trimmed
    split at trimmed
    · cases trimmed
    · exact (Option.some.inj trimmed).symm

theorem nestedEdit?_of_mem {file : Text} (listed : t ∈ editTags s)
    (target : editTarget? t = some file)
    (same : normalPath file = normalPath path) :
    nestedEdit? s path = some (.nestedEdit (normalPath path)) := by
  have only : ∀ reason, nestedEdit? s path = some reason →
    reason = .nestedEdit (normalPath path) := by
    intro reason found
    obtain ⟨tag, _, given⟩ := List.exists_of_findSome?_eq_some found
    obtain ⟨nested, _, given⟩ := Option.bind_eq_some_iff.mp given
    split at given
    · exact (Option.some.inj given).symm
    · cases given
  cases found : nestedEdit? s path with
  | some reason => rw [only reason found]
  | none =>
    rw [nestedEdit?, List.findSome?_eq_none_iff] at found
    have quiet := found t listed
    simp [target, same] at quiet

/-- A payload is turned down for an edit of its own file if the tag is in plain sight. -/
theorem check_of_editsFile (on : screening.selfEdits = true) (edits : EditsFile path tag rest)
    (sight : InPlainSight before tag) :
    screening.check (before ++ (tag.text ++ rest)) path = some (.nestedEdit (normalPath path)) := by
  have here := editTag?_text edits.key sight.parted sight.unbroken rest
  obtain ⟨file, named, same⟩ := edits.names
  obtain ⟨written, target, rfl⟩ := editTarget?_text sight.filled named
  have listed : '<' :: (tag.name ++ tag.attributes) ∈ editTags (before ++ (tag.text ++ rest)) :=
    mem_editTags sight.outside here
  rw [normalPath_trim] at same
  rw [check, if_pos on, nestedEdit?_of_mem listed target same]
  rfl


/-- An edit of a payload's own file behind another one, in other letters, with a bracket in it. -/
theorem check_laterEdit :
    ({} : Screening).check "<edit>a</edit> <EDIT\tall='<' file='.\\a.rs '/>\n".toList "a.rs".toList
    =
      some (.nestedEdit "a.rs".toList) := by
  have edits : EditsFile "a.rs".toList
    ⟨"EDIT".toList, "\tall='<' file='.\\a.rs '/".toList⟩ "\n".toList :=
    ⟨by decide +kernel, by decide, ".\\a.rs".toList, by decide +kernel, by decide +kernel⟩
  have closed : ∀ b ∈ "<edit>a</edit> ".toList.tails, '>' ∉ b → editTag? b = none := by
    decide +kernel
  have sight : InPlainSight "<edit>a</edit> ".toList
    ⟨"EDIT".toList, "\tall='<' file='.\\a.rs '/".toList⟩ :=
    ⟨by decide, by decide, by decide +kernel,
      fun a b split => closed b ((List.mem_tails _ _).mpr ⟨a, split.symm⟩)⟩
  exact check_of_editsFile rfl edits sight

/-- Whether an edit of the payload's own file gets past the screening. -/
def Overlooks (before : Text) (tag : OpeningTag) (rest path : Text) : Prop :=
  EditsFile path tag rest ∧ ({} : Screening).check (before ++ (tag.text ++ rest)) path = none

/-- An edit gets past the screening if a `>` stands in a value, if its path is blank and the file is
named by the other attribute, if an edit tag in front of it is left open, or if a slash follows its
name. -/
theorem plain_sight_matters :
    Overlooks [] ⟨"edit".toList, " title=\"a>b\" path=\"x\"".toList⟩ [] "x".toList ∧
      Overlooks [] ⟨"edit".toList, " path=\"\" file=\"a\"".toList⟩ [] "a".toList ∧
      Overlooks "<edit path=\"b\" ".toList ⟨"edit".toList, " path=\"a\"".toList⟩ [] "a".toList ∧
      Overlooks [] ⟨"edit".toList, "/path=\"a\"".toList⟩ [] "a".toList := by
  refine ⟨⟨⟨?_, ?_, "x".toList, ?_⟩, ?_⟩, ⟨⟨?_, ?_, "a".toList, ?_⟩, ?_⟩,
    ⟨⟨?_, ?_, "a".toList, ?_⟩, ?_⟩, ⟨⟨?_, ?_, "a".toList, ?_⟩, ?_⟩⟩ <;> decide +kernel

end Screening

end MarkupActions
