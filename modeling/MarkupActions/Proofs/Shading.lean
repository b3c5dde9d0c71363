import MarkupActions.Proofs.Rewriting
import MarkupActions.Proofs.Shadows

/-!
# Code regions around a word

A word here is neither white space nor a mark of code. Put another word for it, and fences and spans
open where they opened and end where they ended; only the places behind the word are moved. So what
was covered before is covered after, and nothing else.
-/

namespace MarkupActions

open Code (tick)

/-- A text that neither marks code nor parts words. -/
structure Dark (w : Text) : Prop where
  more : w ≠ []
  dark : ∀ c ∈ w, Text.isBlank c = false
  ticks : tick ∉ w
  tildes : '~' ∉ w

namespace Dark

variable {w : Text}

theorem exists_cons (dark : Dark w) :
    ∃ c t, w = c :: t ∧ Text.isBlank c = false ∧ c ≠ tick ∧ c ≠ '~' := by
  obtain ⟨c, t, rfl⟩ := List.exists_cons_of_ne_nil dark.more
  have ticks := dark.ticks
  have tildes := dark.tildes
  simp only [List.mem_cons, not_or] at ticks tildes
  exact ⟨c, t, rfl, dark.dark c List.mem_cons_self, Ne.symm ticks.1, Ne.symm tildes.1⟩

theorem not_mem (dark : Dark w) {c : Char} (blank : Text.isBlank c = true) : c ∉ w := by
  intro inside
  rw [dark.dark c inside] at blank
  cases blank

theorem unticked (dark : Dark w) : w.head? ≠ some tick := by
  intro first
  obtain ⟨t, rfl⟩ := List.head?_eq_some_iff.mp first
  exact dark.ticks List.mem_cons_self

/-- No fence opens within a word. -/
theorem unfenced {u v : Text} (dark : Dark w) (whole : w = u ++ v) (more : v ≠ []) (s : Text) :
    Code.fenceLength? (v ++ s) = none := by
  subst whole
  obtain ⟨c, v, rfl⟩ := List.exists_cons_of_ne_nil more
  refine Code.fenceLength?_of_calm (Code.calm_cons ⟨?_, ?_, ?_⟩ (v ++ s))
  · rintro rfl
    exact dark.not_mem (by decide) (by simp : ' ' ∈ u ++ ' ' :: v)
  · rintro rfl
    exact dark.ticks (by simp)
  · rintro rfl
    exact dark.tildes (by simp)

end Dark

/-- Two places that are the same before a word, and as far from its end behind it. -/
inductive SamePlace (front old new : Nat) : Nat → Nat → Prop
  | before {n : Nat} (bound : n ≤ front) : SamePlace front old new n n
  | behind (k : Nat) : SamePlace front old new (front + old + k) (front + new + k)

/-- Two regions of which neither is there, or both with the same end. -/
def SameEnd (front old new : Nat) (first second : Option Nat) : Prop :=
  Option.Rel (SamePlace front old new) first second

namespace SamePlace

variable {front old new p q : Nat}

theorem add (n : Nat) (same : SamePlace front old new p q) :
    SamePlace (n + front) old new (n + p) (n + q) := by
  cases same with
  | before bound => exact .before (by omega)
  | behind k =>
    have first : n + (front + old + k) = n + front + old + k := by omega
    have second : n + (front + new + k) = n + front + new + k := by omega
    rw [first, second]
    exact .behind k

theorem eq_zero (long : 0 < old) (same : SamePlace front old new p q) (zero : p = 0) : q = 0 := by
  cases same with
  | before => exact zero
  | behind => omega

theorem positive (long : 0 < new) (same : SamePlace front old new p q) (positive : 0 < p) :
    0 < q := by
  cases same with
  | before => exact positive
  | behind => omega

/-- After a stride in front of the word two places are both behind or the same. -/
theorem stride {n : Nat} (bound : n ≤ front) (same : SamePlace front old new p q) :
    (p = q ∧ p < n) ∨ ∃ r s, p = n + r ∧ q = n + s ∧ SamePlace (front - n) old new r s := by
  cases same with
  | before short =>
    by_cases inside : p < n
    · exact .inl ⟨rfl, inside⟩
    · exact .inr ⟨p - n, p - n, by omega, by omega, .before (by omega)⟩
  | behind k =>
    refine .inr ⟨front - n + old + k, front - n + new + k, by omega, by omega, .behind k⟩

end SamePlace

theorem SameEnd.map {front old new : Nat} {first second : Option Nat} (n : Nat)
    (same : SameEnd front old new first second) :
    SameEnd (n + front) old new (first.map (n + ·)) (second.map (n + ·)) := by
  cases same with
  | none => exact .none
  | some place => exact .some (place.add n)

namespace Code

variable {old new a b : Text}

theorem spanEnd?_word {run : Nat} (positive : run ≠ 0) {w : Text} (ticks : tick ∉ w)
    (one : '\n' ∉ w) (s : Text) :
    spanEnd? run 0 (w ++ s) = (spanEnd? run 0 s).map (w.length + ·) := by
  induction w with
  | nil => simp
  | cons c w ih =>
    simp only [List.mem_cons, not_or] at ticks one
    rw [List.cons_append, spanEnd?, if_neg (Ne.symm ticks.1), if_neg (Ne.symm positive),
      if_neg (Ne.symm one.1), ih ticks.2 one.2, Option.map_map]
    congr 1
    funext n
    simp
    omega

theorem spanEnd?_sameEnd (dark : Dark old) (dark' : Dark new) {run : Nat} (positive : run ≠ 0)
    (seen : Nat) :
    SameEnd a.length old.length new.length (spanEnd? run seen (a ++ (old ++ b)))
      (spanEnd? run seen (a ++ (new ++ b))) := by
  induction a generalizing seen with
  | nil =>
    have step : ∀ w, Dark w → spanEnd? run seen ([] ++ (w ++ b)) =
        if seen = run then some 0 else (spanEnd? run 0 b).map (w.length + ·) := by
      intro w dark
      rw [← spanEnd?_word positive dark.ticks (dark.not_mem (by decide)) b]
      obtain ⟨c, t, rfl, blank, other, _⟩ := dark.exists_cons
      have one : c ≠ '\n' := by
        rintro rfl
        revert blank
        decide
      simp only [List.nil_append, List.cons_append, spanEnd?, other, one, if_false,
        Ne.symm positive]
    rw [step old dark, step new dark']
    split
    · exact .some (.before (Nat.le_refl 0))
    · cases spanEnd? run 0 b with
      | none => exact .none
      | some k =>
        have place := @SamePlace.behind 0 old.length new.length k
        rw [Nat.zero_add, Nat.zero_add] at place
        exact .some place
  | cons c a ih =>
    have onward : ∀ seen, SameEnd (c :: a).length old.length new.length
        ((spanEnd? run seen (a ++ (old ++ b))).map (· + 1))
          ((spanEnd? run seen (a ++ (new ++ b))).map (· + 1)) := by
      intro seen
      have moved := (ih seen).map 1
      simp only [Nat.add_comm 1] at moved
      exact moved
    rw [List.cons_append, List.cons_append, spanEnd?, spanEnd?]
    split
    · exact onward _
    · split
      · exact .some (.before (Nat.zero_le _))
      · split
        · exact .none
        · exact onward 0

theorem spanLength?_sameEnd (dark : Dark old) (dark' : Dark new) :
    SameEnd a.length old.length new.length (spanLength? (a ++ (old ++ b)))
      (spanLength? (a ++ (new ++ b))) := by
  have run : ∀ w, Dark w → runLength tick (a ++ (w ++ b)) = runLength tick a :=
    fun w dark => runLength_word dark.unticked dark.more a b
  have short := runLength_le tick a
  simp only [spanLength?, run old dark, run new dark', List.drop_append_of_le_length short]
  split
  · exact .none
  · rename_i positive
    have moved := (@spanEnd?_sameEnd old new
      (a.drop (runLength tick a)) b dark dark' _ positive 0).map (runLength tick a)
    have size : runLength tick a + (a.drop (runLength tick a)).length = a.length := by
      rw [List.length_drop]
      omega
    rwa [size] at moved

theorem infix_word {w : Text} (ticks : tick ∉ w) {marks : Text} (only : ∀ c ∈ marks, c = tick)
    (more : marks ≠ [])
    (inside : marks <:+: w ++ b) : marks <:+: b := by
  induction w with
  | nil => exact inside
  | cons c w ih =>
    simp only [List.mem_cons, not_or] at ticks
    rcases List.infix_cons_iff.mp inside with front | rest
    · obtain ⟨d, t, rfl⟩ := List.exists_cons_of_ne_nil more
      obtain ⟨same, _⟩ := List.cons_prefix_cons.mp front
      exact False.elim (ticks.1 ((only d List.mem_cons_self).symm.trans same))
    · exact ih ticks.2 rest

/-- A run of backticks stands on one side of a word. -/
theorem contains_word {w : Text} (dark : Dark w) :
    Text.contains [tick, tick, tick] (a ++ (w ++ b)) =
      (Text.contains [tick, tick, tick] a || Text.contains [tick, tick, tick] b) := by
  rw [Bool.eq_iff_iff, Bool.or_eq_true]
  simp only [Text.contains_iff_within]
  constructor
  · intro inside
    have ticks := dark.ticks
    obtain ⟨c, t, rfl, _, other, _⟩ := dark.exists_cons
    simp only [List.mem_cons, not_or] at ticks
    rcases Text.infix_append_cons (by simp [other]) inside with front | back
    · exact .inl front
    · exact .inr (infix_word ticks.2 (by simp) (by simp) back)
  · rintro (front | back)
    · exact front.trans (List.prefix_append _ _).isInfix
    · exact back.trans ⟨a ++ w, [], by simp⟩

theorem dropWhile_word {w : Text} (dark : Dark w) :
    (a ++ (w ++ b)).dropWhile (· == ' ') = a.dropWhile (· == ' ') ++ (w ++ b) := by
  rw [List.dropWhile_append]
  split
  · rename_i empty
    obtain ⟨c, t, rfl, blank, _⟩ := dark.exists_cons
    have other : (c == ' ') = false := by
      rw [beq_eq_false_iff_ne]
      rintro rfl
      revert blank
      decide
    rw [List.isEmpty_iff.mp empty, List.cons_append, List.dropWhile_cons_of_neg (by simp [other])]
    rfl
  · rfl

/-- Whether a row opens a fence, and which, does not depend on the words in it. -/
theorem fence?_word (dark : Dark old) (dark' : Dark new) :
    fence? (a ++ (old ++ b)) = fence? (a ++ (new ++ b)) := by
  have size : ∀ u w : Text, (a ++ (w ++ b)).length - (u ++ (w ++ b)).length =
    a.length - u.length := by
    intro u w
    simp only [List.length_append]
    omega
  cases front : a.dropWhile (· == ' ') with
  | nil =>
    have value : ∀ w, Dark w → fence? (a ++ (w ++ b)) = none := by
      intro w dark
      obtain ⟨c, t, whole, _, unticked, untilded⟩ := dark.exists_cons
      simp only [fence?, dropWhile_word dark, front, List.nil_append]
      simp [whole, unticked, untilded]
    rw [value old dark, value new dark']
  | cons mark rest =>
    have value : ∀ w, Dark w → fence? (a ++ (w ++ b)) =
        if 3 < a.length - (mark :: rest).length then none
        else if mark ≠ tick ∧ mark ≠ '~' then none
        else if runLength mark (mark :: rest) < 3 then none
        else if mark = tick ∧ (Text.contains [tick, tick, tick]
          ((mark :: rest).drop (runLength mark (mark :: rest))) ||
          Text.contains [tick, tick, tick] b) = true then none
        else some (mark, runLength mark (mark :: rest)) := by
      intro w dark
      obtain ⟨c, t, whole, _, unticked, untilded⟩ := dark.exists_cons
      simp only [fence?, dropWhile_word dark, front, size]
      by_cases marked : mark ≠ tick ∧ mark ≠ '~'
      · simp [marked]
      · have other : w.head? ≠ some mark := by
          rw [whole]
          simp only [List.head?_cons, ne_eq, Option.some.injEq]
          rintro rfl
          exact marked ⟨unticked, untilded⟩
        have run := runLength_word other dark.more (mark :: rest) b
        have short := runLength_le mark (mark :: rest)
        rw [List.cons_append] at run
        have cut : (mark :: (rest ++ (w ++ b))).drop (runLength mark (mark :: rest)) =
            (mark :: rest).drop (runLength mark (mark :: rest)) ++ (w ++ b) := by
          rw [← List.cons_append, List.drop_append_of_le_length short]
        simp only [List.cons_append, run, cut, contains_word dark]
    rw [value old dark, value new dark']

/-- The rows around a word, which is part of one of them. -/
theorem rows_word {w : Text} (dark : Dark w) {front back : List Text} {last first : Text}
    (left : Text.rows a = front ++ [last]) (right : Text.rows b = first :: back) :
    Text.rows (a ++ (w ++ b)) = front ++ (last ++ (w ++ first)) :: back := by
  have middle : Text.rows w = [] ++ [w] := Text.rows_eq_singleton (dark.not_mem (by decide))
  exact Text.rows_append left (Text.rows_append middle right)

theorem closesFence_word {w : Text} (dark : Dark w) {mark : Char} (marks : mark = tick ∨ mark = '~')
    (run : Nat) :
    closesFence mark run (a ++ (w ++ b)) = false := by
  obtain ⟨c, t, rfl, blank, unticked, untilded⟩ := dark.exists_cons
  refine closesFence_of_mem (c := c) (by simp) blank ?_
  rcases marks with rfl | rfl
  · exact unticked
  · exact untilded

theorem fencedLength_sameEnd (dark : Dark old) (dark' : Dark new) {mark : Char}
    (marks : mark = tick ∨ mark = '~')
    (run : Nat) (front back : List Text) :
    SamePlace (Text.rowsLength front + a.length) old.length new.length
      (fencedLength mark run (front ++ (a ++ (old ++ b)) :: back))
      (fencedLength mark run (front ++ (a ++ (new ++ b)) :: back)) := by
  induction front with
  | nil =>
    have size : ∀ w : Text, (a ++ (w ++ b)).length = a.length + w.length + b.length := by
      intro w
      simp only [List.length_append]
      omega
    simp only [Text.rowsLength_nil, Nat.zero_add, List.nil_append]
    cases back with
    | nil =>
      simp only [fencedLength, size]
      exact .behind b.length
    | cons row back =>
      simp only [fencedLength, closesFence_word dark marks, closesFence_word dark' marks,
        Bool.false_eq_true, if_false, size]
      have place := @SamePlace.behind a.length old.length new.length
        (b.length + 1 + fencedLength mark run (row :: back))
      simpa only [Nat.add_assoc] using place
  | cons row front ih =>
    have unfold' : ∀ w : Text, fencedLength mark run (row :: (front ++ (a ++ (w ++ b)) :: back)) =
        if closesFence mark run row then row.length
        else row.length + 1 + fencedLength mark run (front ++ (a ++ (w ++ b)) :: back) := by
      intro w
      cases front <;> rfl
    rw [List.cons_append, List.cons_append, unfold', unfold', Text.rowsLength_cons]
    split
    · exact .before (by omega)
    · have moved := ih.add (row.length + 1)
      rwa [← Nat.add_assoc] at moved

theorem fenceLength?_sameEnd (dark : Dark old) (dark' : Dark new) :
    SameEnd a.length old.length new.length (fenceLength? (a ++ (old ++ b)))
      (fenceLength? (a ++ (new ++ b))) := by
  obtain ⟨front, last, left⟩ := Text.exists_last_row a
  obtain ⟨first, back, right⟩ := Text.exists_first_row b
  have size := Text.length_rows a
  rw [left] at size
  simp only [Text.rowsLength_append, Text.rowsLength_cons, Text.rowsLength_nil] at size
  have place : a.length = Text.rowsLength front + last.length := by omega
  simp only [fenceLength?, rows_word dark left right, rows_word dark' left right]
  cases front with
  | nil =>
    simp only [List.nil_append, fence?_word dark dark']
    cases opens : fence? (last ++ (new ++ first)) with
    | none => exact .none
    | some found =>
      have size' : ∀ w : Text, (last ++ (w ++ first)).length =
        a.length + w.length + first.length := by
        intro w
        rw [place]
        simp only [List.length_append, Text.rowsLength_nil]
        omega
      refine .some ?_
      simp only [size']
      split
      · exact .behind first.length
      · have moved := @SamePlace.behind a.length old.length new.length
          (first.length + 1 + fencedLength found.1 found.2 back)
        simpa only [Nat.add_assoc] using moved
  | cons row front =>
    simp only [List.cons_append]
    cases opens : fence? row with
    | none => exact .none
    | some found =>
      have later := fencedLength_sameEnd (a := last) (b := first) dark dark'
        (fence?_inv opens).2 found.2 front back
      have moved := later.add (row.length + 1)
      rw [← Nat.add_assoc, ← Text.rowsLength_cons, ← place] at moved
      have more : ∀ w : Text, (front ++ (last ++ (w ++ first)) :: back).isEmpty = false := by
        intro w
        simp
      refine .some ?_
      simp only [more, Bool.false_eq_true, if_false]
      exact moved

theorem regionLength?_sameEnd (dark : Dark old) (dark' : Dark new) (lineStart : Bool) :
    SameEnd a.length old.length new.length (regionLength? lineStart (a ++ (old ++ b)))
      (regionLength? lineStart (a ++ (new ++ b))) := by
  have span := @spanLength?_sameEnd old new a b dark dark'
  cases lineStart with
  | false => exact span
  | true =>
    have fence := @fenceLength?_sameEnd old new a b dark dark'
    simp only [regionLength?, if_true]
    cases first : fenceLength? (a ++ (old ++ b)) <;>
      cases second : fenceLength? (a ++ (new ++ b)) <;>
      rw [first, second] at fence
    · exact span
    · cases fence
    · cases fence
    · exact fence

/-- No region opens in a word, and no row begins behind one. -/
theorem shadow_past_word {w : Text} (dark : Dark w) (lineStart : Bool) (s : Text) (p : Nat) :
    shadow lineStart (w ++ s) (w.length + p) = (shadow false s p).map (w.length + ·) := by
  have row : startsRow lineStart w = false :=
    startsRow_of_one (dark.not_mem (by decide)) fun empty => False.elim (dark.more empty)
  rw [shadow_append dark.ticks fun _ _ whole more _ => dark.unfenced whole more s, row]

/-- Whether a place is covered does not depend on the words around it. -/
theorem shadow_word (dark : Dark old) (dark' : Dark new) {lineStart : Bool} {p q : Nat}
    (same : SamePlace a.length old.length new.length p q) :
    (shadow lineStart (a ++ (old ++ b)) p).isSome =
    (shadow lineStart (a ++ (new ++ b)) q).isSome := by
  induction size : a.length using Nat.strongRecOn generalizing a lineStart p q with
  | ind size ih =>
    subst size
    have long := List.length_pos_of_ne_nil dark.more
    have long' := List.length_pos_of_ne_nil dark'.more
    have more : ∀ w, Dark w → a ++ (w ++ b) ≠ [] := fun w dark => by simp [dark.more]
    rcases Nat.eq_zero_or_pos p with zero | positive
    · rw [zero, same.eq_zero long zero, shadow_zero, shadow_zero]
    have positive' := same.positive long' positive
    -- After a stride of equal length in both texts less of them is left.
    have onward : ∀ n r s lineStart, 0 < n → n ≤ a.length →
      SamePlace (a.length - n) old.length new.length r s →
        (shadow lineStart ((a ++ (old ++ b)).drop n) r).isSome =
          (shadow lineStart ((a ++ (new ++ b)).drop n) s).isSome := by
      intro n r s lineStart pos bound left
      rw [List.drop_append_of_le_length bound, List.drop_append_of_le_length bound]
      exact ih (a.drop n).length (by rw [List.length_drop]; omega) (by rwa [List.length_drop]) rfl
    have region := @regionLength?_sameEnd old new a b dark dark' lineStart
    generalize first : regionLength? lineStart (a ++ (old ++ b)) = found at region
    generalize second : regionLength? lineStart (a ++ (new ++ b)) = found' at region
    cases region with
    | none =>
      by_cases empty : a = []
      · subst empty
        cases same with
        | before bound => simp only [List.length_nil] at bound; omega
        | behind k =>
          simp only [List.length_nil, Nat.zero_add, List.nil_append, shadow_past_word dark,
            shadow_past_word dark', Option.isSome_map]
      · obtain ⟨stride, pos, bound⟩ := plainLength_word dark.unticked dark.more empty b
        obtain ⟨stride', _, _⟩ := plainLength_word dark'.unticked dark'.more empty b
        have head : (a ++ (old ++ b)).head? = (a ++ (new ++ b)).head? := by
          obtain ⟨c, t, rfl⟩ := List.exists_cons_of_ne_nil empty
          rfl
        rw [shadow_past_plain first positive, shadow_past_plain second positive', stride, stride',
          head, Option.isSome_map, Option.isSome_map]
        rcases same.stride bound with ⟨rfl, inside⟩ | ⟨r, s, rfl, rfl, left⟩
        · rw [Nat.sub_eq_zero_of_le (Nat.le_of_lt inside), shadow_zero, shadow_zero]
        · rw [Nat.add_sub_cancel_left, Nat.add_sub_cancel_left]
          exact onward _ r s _ pos bound left
    | some ends =>
      cases ends with
      | before bound =>
        rcases same.stride bound with ⟨rfl, inside⟩ | ⟨r, s, rfl, rfl, left⟩
        · rw [shadow_of_region first positive inside (more old dark),
            shadow_of_region second positive inside (more new dark')]
        · rw [shadow_past_region first, shadow_past_region second, Option.isSome_map,
            Option.isSome_map]
          exact onward _ r s false (regionLength?_pos first) bound left
      | behind k =>
        have covered : p < a.length + old.length + k → q < a.length + new.length + k →
            (shadow lineStart (a ++ (old ++ b)) p).isSome =
              (shadow lineStart (a ++ (new ++ b)) q).isSome := by
          intro inside inside'
          rw [shadow_of_region first positive inside (more old dark),
            shadow_of_region second positive' inside' (more new dark')]
          rfl
        cases same with
        | before bound => exact covered (by omega) (by omega)
        | behind r =>
          by_cases inside : r < k
          · exact covered (by omega) (by omega)
          · obtain ⟨s, rfl⟩ := Nat.exists_eq_add_of_le (Nat.le_of_not_lt inside)
            have rest : ∀ w : Text, (a ++ (w ++ b)).drop (a.length + w.length + k) = b.drop k := by
              intro w
              rw [← List.append_assoc, ← List.length_append, List.drop_append]
              simp
            rw [← Nat.add_assoc, ← Nat.add_assoc, shadow_past_region first,
              shadow_past_region second, rest, rest, Option.isSome_map, Option.isSome_map]

end Code

end MarkupActions
