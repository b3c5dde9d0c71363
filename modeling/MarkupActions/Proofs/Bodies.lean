import MarkupActions.Proofs.Cuts
import MarkupActions.Proofs.Payloads
import MarkupActions.Proofs.Searching

/-!
# Bodies without code

Where no region of code opens in a body, nothing but its hunks covers a closing tag. So the closing
tag behind it ends it, if as many hunks are finished as have been opened, and if every closing tag
before stands in a hunk.
-/

namespace MarkupActions

open Code (tick)

theorem startsRow_append (lineStart : Bool) (u v : Text) :
    startsRow lineStart (u ++ v) = startsRow (startsRow lineStart u) v := by
  induction u generalizing lineStart with
  | nil => simp [startsRow]
  | cons c u ih => rw [List.cons_append, startsRow_cons, startsRow_cons, ih]

/-- Text in which no region of code opens, and none at its end where a tag follows. -/
structure Level (v : Text) : Prop where
  ticks : tick ∉ v
  calm : ∀ lineStart a b s, v = a ++ b → b ≠ [] → startsRow lineStart a = true →
    Code.Calm (b ++ '<' :: s)

namespace Level

variable {v w : Text}

theorem of_unmarked (ticks : tick ∉ v) (tildes : '~' ∉ v) : Level v where
  ticks := ticks
  calm lineStart a b s whole _ _ := by
    subst whole
    have unmarked : tick ∉ b ∧ '~' ∉ b :=
      ⟨fun inside => ticks (List.mem_append_right _ inside), fun inside =>
        tildes (List.mem_append_right _ inside)⟩
    exact Code.calm_append unmarked (Code.calm_cons (by decide) s)

/-- A tag may have tildes in it, since no row begins there. -/
theorem tag_append {u : Text} (ticks : tick ∉ u) (one : '\n' ∉ u) (level : Level w) :
    Level ('<' :: (u ++ w)) where
  ticks := by
    have other : tick ≠ '<' := by decide
    simp [ticks, other, level.ticks]
  calm lineStart a b s whole more starts := by
    cases a with
    | nil =>
      rw [List.nil_append] at whole
      rw [← whole]
      exact Code.calm_cons (by decide) _
    | cons c a =>
      obtain ⟨rfl, split⟩ := List.cons.inj whole
      rw [startsRow_cons] at starts
      rcases List.append_eq_append_iff.mp split with ⟨m, rfl, rest⟩ | ⟨m, rfl, rfl⟩
      · rw [startsRow_append] at starts
        exact level.calm _ m b s rest more starts
      · unfold startsRow at starts
        split at starts
        · cases starts
        · rename_i d last
          rw [beq_iff_eq] at starts
          exact False.elim (one (List.mem_append_left _ (starts ▸ List.mem_of_getLast? last)))

theorem append (front : Level v) (back : Level w) (meets : w = [] ∨ ∃ u, w = '<' :: u) :
    Level (v ++ w) where
  ticks := by simp [front.ticks, back.ticks]
  calm lineStart a b s whole more starts := by
    rcases List.append_eq_append_iff.mp whole with ⟨m, rfl, rest⟩ | ⟨m, split, rfl⟩
    · rw [startsRow_append] at starts
      exact back.calm _ m b s rest more starts
    · by_cases empty : m = []
      · subst empty
        rw [List.append_nil] at split
        subst split
        exact back.calm _ [] w s rfl (by simpa using more) starts
      · have calm := front.calm lineStart a m
        rcases meets with rfl | ⟨u, rfl⟩
        · rw [List.append_nil]
          exact calm s split empty starts
        · rw [List.append_assoc, List.cons_append]
          exact calm _ split empty starts

theorem shadow (level : Level v) (lineStart : Bool) (s : Text) :
    Code.shadow lineStart (v ++ '<' :: s) v.length = none := by
  have passed := @Code.shadow_append lineStart v ('<' :: s) level.ticks
    (fun a b whole more starts => Code.fenceLength?_of_calm
      (level.calm lineStart a b s whole more starts)) 0
  rw [Code.shadow_zero] at passed
  exact passed

end Level

/-- No closing tag reaches over an angle bracket that opens. -/
theorem ClosingTag.length?_before {name b s : Text} {n : Nat} (one : '<' ∉ name) (more : b ≠ [])
    (found : length? name (b ++ '<' :: s) = some n) : length? name b = some n := by
  obtain ⟨front, blanks, rest, whole, lower, blank, rfl⟩ := length?_eq_some.mp found
  obtain ⟨c, front, rfl⟩ : ∃ c tail, front = c :: tail := by
    cases front with
    | nil => cases lower
    | cons c tail => exact ⟨c, tail, rfl⟩
  have letters : Text.lower front = '/' :: name := (List.cons.inj lower).2
  have unmarked : '<' ∉ front ++ (blanks ++ ['>']) := by
    have inName : '<' ∉ front := by
      intro inside
      have mark : '<'.toLower = '<' := by decide
      have among : '<' ∈ Text.lower front := List.mem_map.mpr ⟨'<', inside, mark⟩
      rw [letters] at among
      rcases List.mem_cons.mp among with slash | among
      · cases slash
      · exact one among
    have inBlanks : '<' ∉ blanks := by
      intro inside
      have white := blank _ inside
      revert white
      decide
    simp [inName, inBlanks]
  have cut : (c :: (front ++ (blanks ++ ['>']))) ++ rest = b ++ '<' :: s := by
    rw [whole]
    simp
  rcases Text.append_eq_append_cons cut with ⟨m, inner, _⟩ | ⟨m, rfl, _⟩
  · obtain ⟨d, b, rfl⟩ := List.exists_cons_of_ne_nil more
    rw [(List.cons.inj inner).2] at unmarked
    exact False.elim (unmarked (by simp))
  · exact length?_eq_some.mpr ⟨c :: front, blanks, m, by simp, lower, blank, rfl⟩

/-- A body without code is ended by the closing tag behind it, if its hunks are finished there and
all closing tags in it stand in hunks. -/
theorem closing?_body {name body : Text} (fits : Repair.fits name = true) (level : Level body)
    (finished : Hunk.count Hunk.opening? body ≤ Hunk.count Hunk.finish? body)
    (covered : ∀ a b n, body = a ++ '<' :: '/' :: b →
      ClosingTag.length? name ('<' :: '/' :: b) = some n →
      Hunk.count Hunk.finish? a < Hunk.count Hunk.opening? a) (s : Text) :
    closing? .content (ClosingTag.length? name) (body ++ (closingTag name ++ s)) =
      some (body.length, (closingTag name).length) := by
  have bracket : closingTag name ++ s = '<' :: ('/' :: (name ++ '>' :: s)) := by simp [closingTag]
  have plain := Repair.isPlain_of_fits fits
  have one : '<' ∉ name := Text.not_mem_of_isPlain (by rwa [Text.lower_of_isPlain plain])
    (by decide)
  refine closing?_eq_some_iff.mpr ⟨?_, ?_, fun place before m closes => ?_⟩
  · rw [List.drop_left]
    exact length?_closingTag fits s
  · rintro (code | ⟨_, hunk⟩)
    · rw [bracket, level.shadow] at code
      cases code
    · rw [Hunk.shadow_eq_none.mpr finished] at hunk
      cases hunk
  · have whole : body = body.take place ++ body.drop place :=
      (List.take_append_drop place body).symm
    have size : (body.take place).length = place := List.length_take_of_le (Nat.le_of_lt before)
    have more : body.drop place ≠ [] := by
      intro empty
      have short := List.drop_eq_nil_iff.mp empty
      omega
    rw [List.drop_append_of_le_length (Nat.le_of_lt before), bracket] at closes
    have here := ClosingTag.length?_before one more closes
    obtain ⟨t, split⟩ := seesTags_length? name _ m here
    rw [split] at here whole
    have less := covered _ _ m whole here
    refine .inr ⟨rfl, ?_⟩
    rw [Hunk.shadow, List.take_append_of_le_length (Nat.le_of_lt before),
      if_neg (Nat.not_le_of_lt less)]
    rfl

end MarkupActions
