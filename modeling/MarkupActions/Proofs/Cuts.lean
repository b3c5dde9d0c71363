import MarkupActions.Proofs.Covers
import MarkupActions.Proofs.Layouts
import MarkupActions.Proofs.Shading
import MarkupActions.Proofs.Trails

/-!
# Texts that are cut and joined

When a block is cut out of a text, what stood before it comes to stand before something else. A tag
that is complete before the cut is read as it was, and so is what is no tag for a reason that is
found before the cut. A place that is bare in front of either text has the same regions before it in
both.
-/

namespace MarkupActions

open Code (tick)

namespace Code

variable {u x y : Text} {n : Nat}

theorem spanEnd?_short {run seen : Nat} (found : spanEnd? run seen (u ++ '<' :: x) = some n)
    (short : n ≤ u.length) :
    spanEnd? run seen (u ++ '<' :: y) = some n := by
  have other : ('<' : Char) ≠ tick := by decide
  have row : ('<' : Char) ≠ '\n' := by decide
  induction u generalizing seen n with
  | nil =>
    simp only [List.nil_append, spanEnd?, other, row, if_false] at found ⊢
    split at found
    · rename_i done
      rw [if_pos done, found]
    · obtain ⟨k, _, rfl⟩ := Option.map_eq_some_iff.mp found
      simp at short
  | cons c u ih =>
    have onward : ∀ seen, (spanEnd? run seen (u ++ '<' :: x)).map (· + 1) = some n →
        (spanEnd? run seen (u ++ '<' :: y)).map (· + 1) = some n := by
      intro seen found
      obtain ⟨k, inner, rfl⟩ := Option.map_eq_some_iff.mp found
      rw [ih inner (by simpa using short)]
      rfl
    rw [List.cons_append, spanEnd?] at found ⊢
    split at found
    · rename_i marked
      rw [if_pos marked]
      exact onward _ found
    · rename_i unmarked
      rw [if_neg unmarked]
      split at found
      · rename_i done
        rw [if_pos done, found]
      · rename_i open'
        rw [if_neg open']
        split at found
        · cases found
        · rename_i same
          rw [if_neg same]
          exact onward 0 found

theorem spanLength?_short (found : spanLength? (u ++ '<' :: x) = some n) (short : n ≤ u.length) :
    spanLength? (u ++ '<' :: y) = some n := by
  have run : ∀ s, runLength tick (u ++ '<' :: s) = runLength tick u := by
    intro s
    exact runLength_word (w := ['<']) (by decide) (by decide) u s
  have bound := runLength_le tick u
  simp only [spanLength?, run, List.drop_append_of_le_length bound] at found ⊢
  split at found
  · cases found
  · rename_i some'
    obtain ⟨k, inner, rfl⟩ := Option.map_eq_some_iff.mp found
    rw [if_neg some', spanEnd?_short inner (by rw [List.length_drop]; omega)]
    rfl

theorem length_le_fencedLength (mark : Char) (run : Nat) (row : Text) (rows : List Text) :
    row.length ≤ fencedLength mark run (row :: rows) := by
  cases rows with
  | nil => exact Nat.le_refl _
  | cons next rows =>
    rw [fencedLength]
    · split
      · exact Nat.le_refl _
      · omega
    · simp

/-- A fenced block that ends before an angle bracket ends there whatever follows the bracket. -/
theorem fenceLength?_short (found : fenceLength? (u ++ '<' :: x) = some n) (short : n ≤ u.length) :
    fenceLength? (u ++ '<' :: y) = some n := by
  obtain ⟨front, last, left⟩ := Text.exists_last_row u
  have size := Text.length_rows u
  rw [left] at size
  simp only [Text.rowsLength_append, Text.rowsLength_cons, Text.rowsLength_nil] at size
  have shape : ∀ s, ∃ first back, Text.rows (u ++ '<' :: s) = front ++
    (last ++ '<' :: first) :: back := by
    intro s
    obtain ⟨first, back, whole⟩ := Text.exists_first_row s
    exact ⟨first, back, Text.rows_append left (Text.rows_cons (by decide) whole)⟩
  obtain ⟨first, back, here⟩ := shape x
  obtain ⟨first', back', here'⟩ := shape y
  rw [fenceLength?, here] at found
  rw [fenceLength?, here']
  cases front with
  | nil =>
    obtain ⟨⟨mark, run⟩, _, rfl⟩ := Option.map_eq_some_iff.mp found
    simp only [Text.rowsLength_nil] at size
    dsimp only at short
    split at short
    · simp only [List.length_append, List.length_cons] at short
      omega
    · simp only [List.length_append, List.length_cons] at short
      omega
  | cons row front =>
    have more : ∀ (next : Text) (rows : List Text), (front ++ next :: rows).isEmpty = false := by
      simp
    simp only [List.cons_append] at found ⊢
    obtain ⟨⟨mark, run⟩, opens, size'⟩ := Option.map_eq_some_iff.mp found
    simp only [more, Bool.false_eq_true, if_false] at size'
    simp only [opens, Option.map_some, more, Bool.false_eq_true, if_false, Option.some.injEq]
    simp only [Text.rowsLength_cons] at size
    by_cases closes : ∃ row ∈ front, closesFence mark run row = true
    · obtain ⟨closing, inside, closes⟩ := closes
      rw [← size', (fencedLength_of_closed inside closes
        (List.cons_ne_nil (last ++ '<' :: first) back)
        (List.cons_ne_nil (last ++ '<' :: first') back')).1]
    · have stays : ∀ row ∈ front, closesFence mark run row = false := by
        intro row inside
        cases closed : closesFence mark run row with
        | false => rfl
        | true => exact False.elim (closes ⟨row, inside, closed⟩)
      have sum := fencedLength_append stays (List.cons_ne_nil (last ++ '<' :: first) back)
      have long := length_le_fencedLength mark run (last ++ '<' :: first) back
      simp only [List.length_append, List.length_cons] at long
      omega

/-- Regions that end before an angle bracket are the same whatever follows the bracket. -/
theorem regionLength?_agree {lineStart : Bool}
    (short : ∀ n, regionLength? lineStart (u ++ '<' :: x) = some n → n ≤ u.length)
    (short' : ∀ n, regionLength? lineStart (u ++ '<' :: y) = some n → n ≤ u.length) :
    regionLength? lineStart (u ++ '<' :: x) = regionLength? lineStart (u ++ '<' :: y) := by
  have agree : ∀ length? : Text → Option Nat,
      (∀ x y n, length? (u ++ '<' :: x) = some n → n ≤ u.length → length? (u ++ '<' :: y) = some n)
        →
      (∀ n, length? (u ++ '<' :: x) = some n → n ≤ u.length) →
      (∀ n, length? (u ++ '<' :: y) = some n → n ≤ u.length) →
        length? (u ++ '<' :: x) = length? (u ++ '<' :: y) := by
    intro length? kept short short'
    refine Option.ext fun n => ⟨fun found => kept x y n found (short n found), fun found => ?_⟩
    exact kept y x n found (short' n found)
  have fence : (if lineStart then fenceLength? (u ++ '<' :: x) else none) =
      if lineStart then fenceLength? (u ++ '<' :: y) else none := by
    cases lineStart with
    | false => rfl
    | true =>
      refine agree fenceLength? (fun _ _ _ => fenceLength?_short)
        (fun n found => short n ?_) fun n found => short' n ?_
      · simp [regionLength?, found]
      · simp [regionLength?, found]
  unfold regionLength? at short short' ⊢
  rw [← fence] at short' ⊢
  split
  · rfl
  · rename_i none
    rw [none] at short short'
    exact agree spanLength? (fun _ _ _ => spanLength?_short) short short'

/-- Where a place is bare in both of two texts that begin alike, the same is covered before it. -/
theorem shadow_agree {lineStart : Bool} (bare : shadow lineStart (u ++ '<' :: x) u.length = none)
    (bare' : shadow lineStart (u ++ '<' :: y) u.length = none) {p : Nat} (before : p ≤ u.length) :
    shadow lineStart (u ++ '<' :: x) p = shadow lineStart (u ++ '<' :: y) p := by
  induction size : u.length using Nat.strongRecOn generalizing u lineStart p with
  | ind size ih =>
    subst size
    by_cases empty : u = []
    · subst empty
      rw [Nat.le_zero.mp before, shadow_zero, shadow_zero]
    · have more := List.length_pos_of_ne_nil empty
      have short : ∀ s, shadow lineStart (u ++ '<' :: s) u.length = none →
          ∀ n, regionLength? lineStart (u ++ '<' :: s) = some n → n ≤ u.length := by
        intro s bare n found
        by_cases past : u.length < n
        · rw [shadow_of_region found more past (by simp)] at bare
          cases bare
        · omega
      have same := regionLength?_agree (short x bare) (short y bare')
      rcases Nat.eq_zero_or_pos p with rfl | positive
      · rw [shadow_zero, shadow_zero]
      -- The walk goes on in both texts after the same stride.
      have onward : ∀ n lineStart q, 0 < n → n ≤ u.length →
          shadow lineStart ((u ++ '<' :: x).drop n) (u.length - n) = none →
          shadow lineStart ((u ++ '<' :: y).drop n) (u.length - n) = none → q ≤ u.length - n →
          shadow lineStart ((u ++ '<' :: x).drop n) q =
            shadow lineStart ((u ++ '<' :: y).drop n) q := by
        intro n lineStart q pos bound bare bare' before
        rw [List.drop_append_of_le_length bound, ← List.length_drop] at bare bare'
        rw [List.drop_append_of_le_length bound, List.drop_append_of_le_length bound]
        exact ih (u.drop n).length (by rw [List.length_drop]; omega) bare bare'
          (by rwa [List.length_drop]) rfl
      cases found : regionLength? lineStart (u ++ '<' :: x) with
      | some n =>
        have bound := short x bare n found
        have found' := same.symm.trans found
        by_cases inside : p < n
        · rw [shadow_of_region found positive inside (by simp),
            shadow_of_region found' positive inside (by simp)]
        · have split : ∀ q, n ≤ q → q = n + (q - n) := fun q past => by omega
          rw [split _ bound, shadow_past_region found, Option.map_eq_none_iff] at bare
          rw [split _ bound, shadow_past_region found', Option.map_eq_none_iff] at bare'
          rw [split p (Nat.le_of_not_lt inside), shadow_past_region found,
            shadow_past_region found', onward n false (p - n)
            (regionLength?_pos found) bound bare bare' (by omega)]
      | none =>
        have found' := same.symm.trans found
        have next : ∀ s, plainLength (u ++ '<' :: s) = plainLength u ∧ 0 < plainLength u ∧
          plainLength u ≤ u.length :=
          plainLength_word (w := ['<']) (by decide) (by decide) empty
        obtain ⟨stride, pos, bound⟩ := next x
        have stride' := (next y).1
        have head : (u ++ '<' :: x).head? = (u ++ '<' :: y).head? := by
          obtain ⟨c, t, rfl⟩ := List.exists_cons_of_ne_nil empty
          rfl
        rw [shadow_past_plain found more, stride, Option.map_eq_none_iff] at bare
        rw [shadow_past_plain found' more, stride', ← head, Option.map_eq_none_iff] at bare'
        rw [shadow_past_plain found positive, shadow_past_plain found' positive, stride, stride',
          ← head, onward _ _ (p - plainLength u) pos bound bare bare' (by omega)]

end Code

namespace OpeningTag

/-- A tag that is read is complete: nothing behind its bracket has a part in it. -/
theorem settles_text {tag : OpeningTag} {x : Text} (read : read? (tag.text ++ x) = some tag) :
    settles none (tag.name ++ tag.attributes ++ ['>']) = true := by
  obtain ⟨_, _, _, _, named⟩ := name_of_read? read
  rw [← settles_dropWhile isNameChar_passedOver, List.append_assoc,
    List.dropWhile_append_of_pos named, settles_dropWhile isNameChar_passedOver]
  exact settles_of_attributes? (inv_read?_text read).1

theorem read?_cut {tag : OpeningTag} {x : Text} (read : read? (tag.text ++ x) = some tag)
    (y : Text) :
    read? (tag.text ++ y) = some tag := by
  have settled := settles_text read
  rw [text, List.cons_append] at read ⊢
  rw [read?_append settled] at read ⊢
  exact read

/-- Whether every tag that begins in a text, be it an opening or a closing one, comes to an angle
bracket in it, outside quotes. -/
def untorn : Text → Bool
  | [] => true
  | c :: s =>
    (c != '<' || !s.head?.all (fun d => d.isAlpha || d == '/') || settles none s) && untorn s

theorem untorn_suffix {a s : Text} (whole : untorn (a ++ s) = true) : untorn s = true := by
  induction a with
  | nil => exact whole
  | cons c a ih =>
    rw [List.cons_append, untorn, Bool.and_eq_true] at whole
    exact ih whole.2

/-- Whether a tag opens at a bracket is told before the text is torn. -/
theorem read?_untorn {u : Text} (whole : untorn ('<' :: u) = true) (x y : Text) :
    read? ('<' :: (u ++ x)) = read? ('<' :: (u ++ y)) := by
  cases u with
  | nil => cases whole
  | cons c u =>
    by_cases letter : c.isAlpha
    · have settled : settles none (c :: u) = true := by
        simpa [untorn, letter] using (Bool.and_eq_true_iff.mp whole).1
      rw [read?_append settled, read?_append settled]
    · simp [read?, letter]

end OpeningTag

namespace ClosingTag

open OpeningTag (untorn)

variable {name u : Text}

/-- Whether a tag closes at a bracket is told before another one. -/
theorem length?_cut (plain : Text.IsPlain name) (ends : '<' ∈ u ∨ '>' ∈ u) (x y : Text) :
    length? name ('<' :: (u ++ x)) = length? name ('<' :: (u ++ y)) := by
  have kept : ∀ x y n, length? name ('<' :: (u ++ x)) = some n →
    length? name ('<' :: (u ++ y)) = some n := by
    intro x y n found
    rw [length?_eq_some] at found ⊢
    obtain ⟨front, blanks, rest, whole, lower, blank, size⟩ := found
    obtain ⟨c, front, rfl, head, inner⟩ := List.map_eq_cons_iff.mp lower
    have unmarked : ∀ d, (d = '<' ∨ d = '>') → d ∉ front ++ blanks := by
      intro d mark inside
      rcases List.mem_append.mp inside with inside | inside
      · have lowered : d.toLower ∈ '/' :: name := by
          rw [← inner]
          exact List.mem_map_of_mem inside
        rcases List.mem_cons.mp lowered with slash | letter
        · rcases mark with rfl | rfl <;> revert slash <;> decide
        · have plainLetter := plain _ letter
          rcases mark with rfl | rfl <;> revert plainLetter <;> decide
      · have dark := blank d inside
        rcases mark with rfl | rfl <;> revert dark <;> decide
    have inner' : u ++ x = (front ++ blanks) ++ '>' :: rest := by
      simpa using (List.cons.inj whole).2
    rcases Text.append_eq_append_cons inner' with ⟨m, rfl, _⟩ | ⟨m, shorter, _⟩
    · exact ⟨c :: front, blanks, m ++ y,
        by rw [← (List.cons.inj whole).1]; simp, lower, blank, size⟩
    · rcases ends with inside | inside
      · exact False.elim (unmarked '<' (.inl rfl) (by rw [shorter]; simp [inside]))
      · exact False.elim (unmarked '>' (.inr rfl) (by rw [shorter]; simp [inside]))
  exact Option.ext fun n => ⟨kept x y n, kept y x n⟩

theorem mem_of_settles {quote : Option Char} (settled : OpeningTag.settles quote u = true) :
    '<' ∈ u ∨ '>' ∈ u := by
  induction u generalizing quote with
  | nil => cases settled
  | cons c u ih =>
    cases quote with
    | some q => exact (ih settled).imp (List.mem_cons_of_mem _) (List.mem_cons_of_mem _)
    | none =>
      simp only [OpeningTag.settles, Bool.or_eq_true, beq_iff_eq] at settled
      rcases settled with (rfl | rfl) | later
      · exact .inl List.mem_cons_self
      · exact .inr List.mem_cons_self
      · exact (ih later).imp (List.mem_cons_of_mem _) (List.mem_cons_of_mem _)

theorem length?_untorn (plain : Text.IsPlain name) (whole : untorn ('<' :: u) = true) (x y : Text) :
    length? name ('<' :: (u ++ x)) = length? name ('<' :: (u ++ y)) := by
  cases u with
  | nil => cases whole
  | cons c u =>
    by_cases slash : c = '/'
    · have settled : OpeningTag.settles none (c :: u) = true := by
        simpa [untorn, slash] using (Bool.and_eq_true_iff.mp whole).1
      exact length?_cut plain (mem_of_settles settled) x y
    · have none : ∀ s, length? name ('<' :: (c :: u ++ s)) = none := by
        intro s
        cases found : length? name ('<' :: (c :: u ++ s)) with
        | none => rfl
        | some n =>
          obtain ⟨front, blanks, rest, whole, lower, _⟩ := length?_eq_some.mp found
          obtain ⟨d, front, rfl, _, inner⟩ := List.map_eq_cons_iff.mp lower
          obtain ⟨e, front, rfl, head, _⟩ := List.map_eq_cons_iff.mp inner
          have same := Text.eq_of_toLower_eq (by decide) head
          exact False.elim (slash ((List.cons.inj (List.cons.inj whole).2).1.trans same))
      rw [none, none]

theorem firstEnd?_eq_none {s : Text} :
    firstEnd? name s = none ↔ ∀ front tail, s = front ++ tail → length? name tail = none := by
  induction s with
  | nil =>
    simp only [firstEnd?, true_iff]
    rintro front tail whole
    rw [(List.append_eq_nil_iff.mp whole.symm).2]
    rfl
  | cons c s ih =>
    constructor
    · intro absent front tail whole
      rw [firstEnd?] at absent
      split at absent
      · cases absent
      · rename_i here
        cases front with
        | nil =>
          rw [List.nil_append] at whole
          rw [← whole, here]
        | cons d front =>
          exact ih.mp (Option.map_eq_none_iff.mp absent) front tail (List.cons.inj whole).2
    · intro absent
      have later := ih.mpr fun front tail whole => absent (c :: front) tail (by rw [whole]; rfl)
      rw [firstEnd?, absent [] (c :: s) rfl]
      simp only [later, Option.map_none]

end ClosingTag

end MarkupActions
