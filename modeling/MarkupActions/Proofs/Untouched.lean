import MarkupActions.Proofs.Containment
import MarkupActions.Proofs.Passes

/-!
# A block on its own

What mending does to a text that is one closed block with a payload. All families but the one that
owns the block leave it alone. The owner ends the closing tags that break off, wherever in the block
they stand, and does nothing else.
-/

namespace MarkupActions

open Payload
open Repair (Named)

/-- Whether a closing tag by one of some names, in any letter case, breaks off in a text: white
space follows the name, and then something else than its end. -/
def BreaksOff (names : List Text) (s : Text) : Prop :=
  ∃ a front blanks c rest, s = a ++ '<' :: '/' :: (front ++ (blanks ++ c :: rest)) ∧
    Named names front ∧ blanks ≠ [] ∧
    (∀ b ∈ blanks, Text.isBlank b = true) ∧ Text.isBlank c = false ∧ c ≠ '>'

namespace Text

variable {patch : Patch} {mark : Char}

/-- Where each change puts in more of a character than it takes out, either there is no change or
there is more of it. -/
theorem patchAll_grows
    (grows : ∀ s n new, patch s = some (n, new) →
      ∃ front back, s = front ++ back ∧ front.length = n ∧ front ≠ [] ∧
        front.count mark < new.count mark) (s : Text) :
    (∀ a b, s = a ++ b → b ≠ [] → patch b = none) ∨ s.count mark <
    (patchAll patch s).count mark := by
  induction s using patchAll_induct grows with
  | nil =>
    left
    intro a b whole more
    exact False.elim (more (List.append_eq_nil_iff.mp whole.symm).2)
  | keep c s found ih =>
    rw [patchAll_of_none found]
    rcases ih with quiet | more
    · left
      intro a b whole more
      cases a with
      | nil => rwa [← show c :: s = b from whole]
      | cons d a => exact quiet a b (List.cons.inj whole).2 more
    · right
      simp only [List.count_cons]
      omega
  | patched front back new found more less ih =>
    right
    rw [patchAll_of_some found more, List.count_append, List.count_append]
    rcases ih with quiet | behind
    · rw [patchAll_of_quiet quiet]
      omega
    · omega

end Text

/-- A character that lacks a property does not stand where all have it. -/
theorem count_of_passed {p : Char → Bool} {v : Text} {mark : Char} (passed : ∀ c ∈ v, p c = true)
    (stop : p mark = false) : v.count mark = 0 := by
  refine List.count_eq_zero_of_not_mem fun inside => ?_
  rw [passed mark inside] at stop
  cases stop

/-- No edit takes the end of a tag away. -/
theorem Mends.count_bracket_le {old new : Text} (made : Mends old new) :
    old.count '>' ≤ new.count '>' := by
  cases made with
  | closes closed =>
    cases closed with
    | bracket blank =>
      rw [count_of_passed blank (by decide)]
      exact Nat.zero_le _
    | slash blank =>
      rw [count_of_passed blank (by decide)]
      exact Nat.zero_le _
  | unquotes quoted =>
    rw [List.count_append, count_of_passed quoted (by decide)]
    exact Nat.le_of_eq (Nat.zero_add _)

theorem Rewrites.count_bracket_le {s t : Text} (run : Rewrites Mends s t) :
    s.count '>' ≤ t.count '>' := by
  refine run.preserves (P := fun u => s.count '>' ≤ u.count '>') ?_ (Nat.le_refl _)
  rintro _ _ ⟨front, back, made⟩ bound
  have here := made.count_bracket_le
  simp only [List.count_append] at bound ⊢
  omega

namespace Repair

variable {names : List Text} {s : Text}

/-- Each closing tag that is ended is one more end of a tag. -/
theorem unterminatedClosingRule_grows {n : Nat} {new : Text}
    (fires : unterminatedClosingRule names s = some (n, new)) :
    ∃ front back, s = front ++ back ∧ front.length = n ∧ front ≠ [] ∧
      front.count '>' < new.count '>' := by
  obtain ⟨front, rest, rfl, _, ⟨none', rfl, rfl⟩ | ⟨c, tail, left, _, other, rfl, rfl⟩⟩ :=
    unterminatedClosingRule_inv fires
  · have blank : rest.count '>' = 0 :=
      count_of_passed (List.dropWhile_eq_nil_iff.mp none') (by decide)
    refine ⟨'<' :: '/' :: (front ++ rest), [], by simp, by simp; omega, by simp, ?_⟩
    simp [blank]
  · have blank : (rest.takeWhile Text.isBlank).count '>' = 0 :=
      count_of_passed (fun b inside => List.mem_takeWhile_imp inside) (by decide)
    have whole : rest = rest.takeWhile Text.isBlank ++ ([c] ++ tail) := by
      rw [List.singleton_append, ← left, List.takeWhile_append_dropWhile]
    refine ⟨'<' :: '/' :: (front ++ (rest.takeWhile Text.isBlank ++ [c])), tail, ?_,
      by simp; omega, by simp, ?_⟩
    · conv_lhs => rw [whole]
      simp
    · simp [blank, other]

theorem unterminatedClosingRule_of_breaksOff {front blanks rest : Text} {c : Char}
    (named : Named names front)
    (more : blanks ≠ []) (blank : ∀ b ∈ blanks, Text.isBlank b = true)
    (dark : Text.isBlank c = false) (other : c ≠ '>') :
    unterminatedClosingRule names ('<' :: '/' :: (front ++ (blanks ++ c :: rest))) ≠ none := by
  obtain ⟨name, listed, matched⟩ := named
  have after := Text.afterFolded?_eq_some.mpr
    ⟨front, (rfl : front ++ (blanks ++ c :: rest) = _), matched⟩
  have passed : (blanks ++ c :: rest).takeWhile Text.isBlank = blanks :=
    Text.takeWhile_exact blank (by simpa using dark)
  have nonempty : blanks.isEmpty = false := by simpa using more
  intro quiet
  rw [unterminatedClosingRule, List.findSome?_eq_none_iff] at quiet
  have here := quiet name listed
  simp only [after, Option.bind_eq_bind, Option.bind_some, passed, List.drop_left, nonempty,
    beq_false_of_ne other, Bool.or_false, Bool.false_eq_true, if_false, reduceCtorEq] at here

/-- In a text that ends with a bracket no closing tag is ended but one that breaks off. -/
theorem unterminatedClosingRule_of_not_breaksOff (orderly : ∀ name ∈ names, fits name = true)
    (ends : s.getLast? = some '>') (whole' : ¬ BreaksOff names s) {a b : Text}
    (split : s = a ++ b) :
    unterminatedClosingRule names b = none := by
  cases fires : unterminatedClosingRule names b with
  | none => rfl
  | some change =>
    obtain ⟨front, rest, rfl, named, ⟨none', _⟩ | ⟨c, tail, left, more, other, _⟩⟩ :=
      unterminatedClosingRule_inv fires
    · have last : '>' ∈ front ++ rest := by
        have some' : front ++ rest ≠ [] := by
          obtain ⟨d, w, rfl, _⟩ := startsName_of_named orderly named
          simp
        have shape : s = (a ++ ['<', '/']) ++ (front ++ rest) := by simp [split]
        rw [shape, List.getLast?_append_of_ne_nil _ some'] at ends
        exact List.mem_of_getLast? ends
      rcases List.mem_append.mp last with inside | inside
      · have letter := isNameChar_of_named
          (fun name listed => isPlain_of_fits (orderly name listed)) named _ inside
        exact absurd letter (by decide)
      · exact absurd (List.dropWhile_eq_nil_iff.mp none' _ inside) (by decide)
    · have dark : Text.isBlank c = false := by
        have head := @Text.head_dropWhile Text.isBlank rest
        rw [left] at head
        simpa using head
      refine False.elim (whole' ⟨a, front, rest.takeWhile Text.isBlank, c, tail, ?_, named, more,
        fun d inside => List.mem_takeWhile_imp inside, dark, other⟩)
      rw [← left, List.takeWhile_append_dropWhile, split]

/-- Such a text is left alone if no closing tag breaks off, and gets one more bracket or several if
one does. -/
theorem patchAll_unterminatedClosing (orderly : ∀ name ∈ names, fits name = true)
    (ends : s.getLast? = some '>') :
    (¬ BreaksOff names s ∧ Text.patchAll (unterminatedClosingRule names) s = s) ∨
      (BreaksOff names s ∧ s.count '>' < (Text.patchAll (unterminatedClosingRule names) s).count
        '>') := by
  by_cases breaks : BreaksOff names s
  · right
    refine ⟨breaks, ?_⟩
    obtain ⟨a, front, blanks, c, rest, whole, named, more, blank, dark, other⟩ := breaks
    rcases Text.patchAll_grows (fun _ _ _ fires => unterminatedClosingRule_grows fires) s with quiet
      | grown
    · exact False.elim (unterminatedClosingRule_of_breaksOff named more blank dark other
        (quiet a _ whole (by simp)))
    · exact grown
  · left
    exact ⟨breaks, Text.patchAll_of_quiet fun a b split _ =>
      unterminatedClosingRule_of_not_breaksOff orderly ends breaks split⟩

end Repair

/-- The layout of a text that is one block. -/
theorem Matcher.layout_alone {m : Matcher} {block : Block} (alone : m.blocks block.text = [block]) :
    m.layout block.text = .next [] block (.last []) := by
  have whole := m.layout_text block.text
  unfold Matcher.blocks at alone
  cases left : m.layout block.text with
  | last gap =>
    rw [left] at alone
    cases alone
  | next gap part rest =>
    rw [left] at alone whole
    obtain ⟨rfl, none'⟩ := List.cons.inj alone
    cases rest with
    | next gap part rest => cases none'
    | last behind =>
      have size := congrArg List.length whole
      simp only [Layout.text, List.length_append] at size
      rw [List.length_eq_zero_iff.mp (show gap.length = 0 by omega),
        List.length_eq_zero_iff.mp (show behind.length = 0 by omega)]

namespace Registry

variable {table : SpellingTable} {family : Family} {block : Block} {tag : Text}

/-- A family leaves a text alone that is one closed block of another family. -/
theorem mendWith_foreign (orderly : ∀ repair ∈ family.repairs, repair.mendsTags = true)
    (alone : table.anySpellingMatcher.blocks block.text = [block])
    (other : foreign table family block = true) :
    mendWith table block.text family = block.text := by
  rw [mendWith_eq, Matcher.layout_alone alone, Layout.select, if_pos other]
  simp [Repair.applyOutside, Layout.select, Layout.mapGaps, Layout.text,
    Repair.applyAll_nil orderly]

/-- A text that is one block of its own it goes over as a whole. -/
theorem mendWith_own (alone : table.anySpellingMatcher.blocks block.text = [block])
    (own : foreign table family block = false) :
    mendWith table block.text family = Repair.applyAll family.repairs block.text := by
  rw [mendWith_eq, Matcher.layout_alone alone, Layout.select, if_neg (by simp [own])]
  simp [Repair.applyOutside, Layout.select, Layout.mapGaps, Layout.text]

theorem repairs_payload : ∀ family ∈ Family.builtIn, ∀ tag ∈ payloadTags, family.owns tag = true →
    family.repairs.all Repair.endsClosing = true ∧
      family.repairs.map Repair.sought = [family.spellings] := by
  decide +kernel

/-- The repairs of a family with payloads end its closing tags. -/
theorem applyAll_payload (member : family ∈ Family.builtIn) (listed : tag ∈ payloadTags)
    (own : family.owns tag = true)
    (s : Text) : Repair.applyAll family.repairs s = Text.patchAll
    (Repair.unterminatedClosingRule family.spellings) s := by
  obtain ⟨closes, sought⟩ := repairs_payload family member tag listed own
  obtain ⟨repair, single, names⟩ := List.map_eq_singleton_iff.mp sought
  rw [single] at closes ⊢
  cases repair with
  | unterminatedClosing tags =>
    rw [← names]
    rfl
  | strayQuote tags => simp [Repair.endsClosing] at closes
  | unterminatedSelfClosing tags => simp [Repair.endsClosing] at closes
  | literal old new => simp [Repair.endsClosing] at closes

/-- A text that is one closed block with a payload passes all repairs byte for byte if and only if
no closing tag by one of the names of its own family breaks off in it. -/
theorem mend_block_iff (alone : builtIn.table.anySpellingMatcher.blocks block.text = [block])
    (closed : block.isClosed = true) (known : builtIn.table.canonical? block.name = some tag)
    (listed : tag ∈ payloadTags) (member : family ∈ Family.builtIn) (own : family.owns tag = true) :
    builtIn.mend block.text = block.text ↔ ¬ BreaksOff family.spellings block.text := by
  have others : ∀ other ∈ Family.builtIn, other ≠ family →
    mendWith builtIn.table block.text other = block.text := by
    intro other among apart
    refine mendWith_foreign (Repair.builtIn_mendsTags other among) alone ?_
    cases owned : other.owns tag with
    | true =>
      exact False.elim (apart (Family.builtIn_apart other among family member tag owned own))
    | false => simp [foreign, closed, known, owned]
  have mine : mendWith builtIn.table block.text family =
      Text.patchAll (Repair.unterminatedClosingRule family.spellings) block.text := by
    rw [mendWith_own alone (by simp [foreign, known, own]), applyAll_payload member listed own]
  have ends : block.text.getLast? = some '>' := by
    obtain ⟨rest, found⟩ := Matcher.blockAt?_of_mem_blocks (alone ▸ List.mem_singleton_self block)
    obtain ⟨u, shape⟩ := text_of_blockAt? found
    rw [shape, List.getLast?_concat]
  have families : builtIn.families = Family.builtIn := rfl
  rcases Repair.patchAll_unterminatedClosing
    (spellings_tag family member tag listed own).2.1 ends with
    ⟨whole, kept⟩ | ⟨breaks, more⟩
  · refine iff_of_true (foldl_eq_self fun other among => ?_) whole
    by_cases same : other = family
    · rw [same, mine, kept]
    · exact others other among same
  · refine iff_of_false (fun kept => ?_) (fun whole => whole breaks)
    obtain ⟨before, after, split, first⟩ := List.eq_append_cons_of_mem member
    have front : before.foldl (mendWith builtIn.table) block.text = block.text :=
      foldl_eq_self fun other inside =>
      others other (by rw [split]; simp [inside]) fun same => first (same ▸ inside)
    have behind := (@foldl_mendWith_rewrites builtIn.table after
      (fun other inside => Repair.builtIn_mendsTags other (by rw [split]; simp [inside]))
      (mendWith builtIn.table block.text family)).count_bracket_le
    rw [mend, families, split, List.foldl_append, front, List.foldl_cons] at kept
    rw [kept, mine] at behind
    omega

/-- A file that speaks of broken tags, some of them its own. -/
theorem mend_block_iff_file :
    let block : Block := ⟨⟨"Write_File".toList, " path=\"a\"".toList⟩,
      .closed "see </edit or </bash x, </write".toList "</write_FILE\n>".toList⟩
    builtIn.table.anySpellingMatcher.blocks block.text = [block] ∧ block.isClosed = true ∧
      builtIn.table.canonical? block.name = some "write".toList ∧ "write".toList ∈ payloadTags ∧
      Family.write ∈ Family.builtIn ∧ Family.write.owns "write".toList = true ∧
      (builtIn.mend block.text = block.text ↔ ¬ BreaksOff Family.write.spellings block.text) := by
  intro block
  have alone : builtIn.table.anySpellingMatcher.blocks block.text = [block] := by decide +kernel
  have closed : block.isClosed = true := rfl
  have known : builtIn.table.canonical? block.name = some "write".toList := by decide +kernel
  have listed : "write".toList ∈ payloadTags := by decide
  have member : Family.write ∈ Family.builtIn := by simp [Family.builtIn]
  have own : Family.write.owns "write".toList = true := by decide
  exact ⟨alone, closed, known, listed, member, own,
    mend_block_iff alone closed known listed member own⟩

/-- A closing tag of its own family that breaks off inside of a payload is ended there. -/
theorem own_closing_matters :
    ¬ ∀ block : Block, builtIn.table.anySpellingMatcher.blocks block.text = [block] →
      block.isClosed = true →
      (∃ tag ∈ payloadTags, builtIn.table.canonical? block.name = some tag) →
        builtIn.mend block.text = block.text := by
  intro always
  have same := always ⟨⟨"write".toList, []⟩, .closed "a</write b".toList "</write>".toList⟩
    (by decide +kernel) rfl
    ⟨"write".toList, by decide, by decide +kernel⟩
  revert same
  decide +kernel

end Registry

end MarkupActions
