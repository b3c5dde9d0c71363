import Mathlib.Logic.Relation
import MarkupActions.Proofs.Texts

/-!
# Rewriting a text

An edit puts one stretch of a text for another and leaves everything around it. Mending and renaming
come down to edits, one after the other. Here it is only said what edits do to the texts around
them; which edits the preparation makes is said elsewhere.
-/

namespace MarkupActions

variable {edit : Text → Text → Prop}

inductive EditStep (edit : Text → Text → Prop) : Text → Text → Prop
  | at (front back : Text) {old new : Text} (made : edit old new) :
      EditStep edit (front ++ (old ++ back)) (front ++ (new ++ back))

/-- Any number of edits, one after the other. -/
def Rewrites (edit : Text → Text → Prop) : Text → Text → Prop :=
  Relation.ReflTransGen (EditStep edit)

/-- The character stands in nothing that is put in. -/
def NeverNew (edit : Text → Text → Prop) (c : Char) : Prop := ∀ old new, edit old new → c ∉ new

/-- The character stands in nothing that is taken out. -/
def NeverOld (edit : Text → Text → Prop) (c : Char) : Prop := ∀ old new, edit old new → c ∉ old

namespace Rewrites

theorem refl (s : Text) : Rewrites edit s s := Relation.ReflTransGen.refl

theorem trans {s t u : Text} (first : Rewrites edit s t) (second : Rewrites edit t u) :
    Rewrites edit s u :=
  Relation.ReflTransGen.trans first second

theorem single {old new : Text} (made : edit old new) : Rewrites edit old new := by
  have step := EditStep.at [] [] made
  simp only [List.nil_append, List.append_nil] at step
  exact Relation.ReflTransGen.single step

theorem mono {edit' : Text → Text → Prop} (weaker : ∀ old new, edit old new → edit' old new)
    {s t : Text}
    (run : Rewrites edit s t) : Rewrites edit' s t := by
  induction run with
  | refl => exact refl s
  | tail _ last ih =>
    obtain ⟨front, back, made⟩ := last
    exact Relation.ReflTransGen.tail ih (.at front back (weaker _ _ made))

theorem append_left (u : Text) {s t : Text} (run : Rewrites edit s t) :
    Rewrites edit (u ++ s) (u ++ t) := by
  induction run with
  | refl => exact refl _
  | tail _ last ih =>
    obtain ⟨front, back, made⟩ := last
    refine Relation.ReflTransGen.tail ih ?_
    simpa using EditStep.at (u ++ front) back made

theorem append_right (u : Text) {s t : Text} (run : Rewrites edit s t) :
    Rewrites edit (s ++ u) (t ++ u) := by
  induction run with
  | refl => exact refl _
  | tail _ last ih =>
    obtain ⟨front, back, made⟩ := last
    refine Relation.ReflTransGen.tail ih ?_
    simpa using EditStep.at front (back ++ u) made

theorem append {s t u v : Text} (left : Rewrites edit s t) (right : Rewrites edit u v) :
    Rewrites edit (s ++ u) (t ++ v) :=
  (left.append_right u).trans (right.append_left t)

theorem cons (c : Char) {s t : Text} (run : Rewrites edit s t) : Rewrites edit (c :: s) (c :: t) :=
  run.append_left [c]

/-- What every edit preserves is preserved throughout. -/
theorem preserves {P : Text → Prop} (step : ∀ s t, EditStep edit s t → P s → P t) {s t : Text}
    (run : Rewrites edit s t) (start : P s) : P t := by
  induction run with
  | refl => exact start
  | tail _ last ih => exact step _ _ last ih

end Rewrites

/-- The place of a character that is never taken out is found again after an edit. -/
theorem EditStep.split_of_old {c : Char} (kept : NeverOld edit c) {s t a b : Text}
    (step : EditStep edit s t)
    (whole : s = a ++ c :: b) : ∃ a' b', t = a' ++ c :: b' ∧ Rewrites edit a a' ∧
    Rewrites edit b b' := by
  obtain ⟨front, back, made⟩ := step
  rename_i old new
  rcases Text.append_eq_append_cons whole with ⟨m, rfl, rfl⟩ | ⟨m, rfl, rest⟩
  · exact ⟨a, m ++ (new ++ back),
      by simp, .refl a, ((Rewrites.single made).append_right back).append_left m⟩
  · rcases Text.append_eq_append_cons rest with ⟨k, rfl, _⟩ | ⟨k, rfl, rfl⟩
    · exact False.elim (kept _ _ made (by simp))
    · refine ⟨front ++ (new ++ k), b, by simp, ?_, .refl b⟩
      exact ((Rewrites.single made).append_right k).append_left front

/-- The place of a character that is never put in was there before an edit. -/
theorem EditStep.split_of_new {c : Char} (kept : NeverNew edit c) {s t a b : Text}
    (step : EditStep edit s t)
    (whole : t = a ++ c :: b) : ∃ a' b', s = a' ++ c :: b' ∧ Rewrites edit a' a ∧
    Rewrites edit b' b := by
  obtain ⟨front, back, made⟩ := step
  rename_i old new
  rcases Text.append_eq_append_cons whole with ⟨m, rfl, rfl⟩ | ⟨m, rfl, rest⟩
  · exact ⟨a, m ++ (old ++ back),
      by simp, .refl a, ((Rewrites.single made).append_right back).append_left m⟩
  · rcases Text.append_eq_append_cons rest with ⟨k, rfl, _⟩ | ⟨k, rfl, rfl⟩
    · exact False.elim (kept _ _ made (by simp))
    · refine ⟨front ++ (old ++ k), b, by simp, ?_, .refl b⟩
      exact ((Rewrites.single made).append_right k).append_left front

namespace Rewrites

theorem split_of_old {c : Char} (kept : NeverOld edit c) {a b t : Text}
    (run : Rewrites edit (a ++ c :: b) t) :
    ∃ a' b', t = a' ++ c :: b' ∧ Rewrites edit a a' ∧ Rewrites edit b b' := by
  induction run with
  | refl => exact ⟨a, b, rfl, refl a, refl b⟩
  | tail _ last ih =>
    obtain ⟨p, q, whole, left, right⟩ := ih
    obtain ⟨p', q', whole', left', right'⟩ := last.split_of_old kept whole
    exact ⟨p', q', whole', left.trans left', right.trans right'⟩

theorem split_of_new {c : Char} (kept : NeverNew edit c) {s a b : Text}
    (run : Rewrites edit s (a ++ c :: b)) :
    ∃ a' b', s = a' ++ c :: b' ∧ Rewrites edit a' a ∧ Rewrites edit b' b := by
  generalize whole : a ++ c :: b = t at run
  induction run generalizing a b with
  | refl => exact ⟨a, b, whole.symm, refl a, refl b⟩
  | tail _ last ih =>
    obtain ⟨p, q, whole', left', right'⟩ := last.split_of_new kept whole.symm
    obtain ⟨a', b', whole'', left, right⟩ := ih whole'.symm
    exact ⟨a', b', whole'', left.trans left', right.trans right'⟩

theorem mem_of_mem {c : Char} (kept : NeverNew edit c) {s t : Text} (run : Rewrites edit s t)
    (inside : c ∈ t) :
    c ∈ s := by
  obtain ⟨a, b, rfl⟩ := List.append_of_mem inside
  obtain ⟨a', b', rfl, _, _⟩ := run.split_of_new kept
  simp

end Rewrites

end MarkupActions
