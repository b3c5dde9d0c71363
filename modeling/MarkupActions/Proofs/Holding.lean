import MarkupActions.Proofs.Frames
import MarkupActions.Proofs.Respelling
import MarkupActions.Proofs.Standing

/-!
# Framed contents under edits

Mending and renaming may change what a frame holds, but not so that it gets out: no backtick comes
or goes, a row that is touched has an angle bracket in it and closes no fence, and no literal block
is closed anew.
-/

namespace MarkupActions

open Code (tick StaysOpen)

variable {edit : Text → Text → Prop}

/-- Nothing but ends of tags. -/
def Ends (s : Text) : Prop := ∀ c ∈ s, c = '/' ∨ c = '>'

/-- Edits that leave every frame as it is. -/
structure Tame (edit : Text → Text → Prop) : Prop where
  marked : ∀ old new, edit old new → ∃ c ∈ new, c = '<' ∨ c = '>'
  rows : NeverNew edit '\n'
  ticks : NeverNew edit tick
  kept : NeverOld edit tick
  literal : Stands edit ('/' :: Inert.literalName)
  ends : ∀ s t, EditStep edit s t → Ends s → Ends t

theorem tame_mends : Tame Mends where
  marked old new made := ⟨'>', by rcases made.new_eq with rfl | rfl <;> simp, .inr rfl⟩
  rows := neverNew_mends (by decide) (by decide)
  ticks := neverNew_mends (by decide) (by decide)
  kept := neverOld_mends (by decide) (by decide) (by decide)
  literal := endsTags_mends.stands (by decide) (by decide)
  ends s t step only := by
    obtain ⟨front, back, made⟩ := step
    rename_i old new
    intro c inside
    simp only [List.mem_append] at inside
    rcases inside with left | middle | right
    · exact only c (by simp [left])
    · rcases made.new_eq with rfl | rfl
      · exact .inr (List.mem_singleton.mp middle)
      · simpa using middle
    · exact only c (by simp [right])

theorem tame_respells : Tame (Respells Registry.builtIn.table) where
  marked old new made := by
    obtain ⟨slash, tag, rfl, _⟩ := made.new_eq SpellingTable.orderly_builtIn
    exact ⟨'<', List.mem_cons_self, .inl rfl⟩
  rows := Respells.neverNew SpellingTable.orderly_builtIn (by decide) (by decide) (by decide)
  ticks := Respells.neverNew SpellingTable.orderly_builtIn (by decide) (by decide) (by decide)
  kept := Respells.neverOld SpellingTable.orderly_builtIn (by decide) (by decide) (by decide)
  literal := by
    have unlike : ∀ entry ∈ Registry.builtIn.table.entries,
        ¬ Inert.literalName <+: entry.2 ∧ ¬ entry.2 <+: Inert.literalName := by
      intro entry inside
      obtain ⟨_, fits, apart⟩ := SpellingTable.orderly_builtIn entry inside
      simp only [Repair.fits, Bool.and_eq_true, Bool.not_eq_true'] at fits
      rw [← List.isPrefixOf_iff_prefix, ← List.isPrefixOf_iff_prefix, apart, fits.2]
      simp
    exact Respells.stands SpellingTable.orderly_builtIn Inert.isPlain_literalName unlike
  ends s t step only := by
    obtain ⟨front, back, made⟩ := step
    obtain ⟨rest, rfl⟩ := made.old_eq
    have no : ¬ ('<' = '/' ∨ '<' = '>') := by decide
    exact False.elim (no (only '<' (by simp)))

namespace Tame

theorem new_ne_nil (tame : Tame edit) {old new : Text} (made : edit old new) : new ≠ [] := by
  obtain ⟨c, inside, _⟩ := tame.marked old new made
  exact List.ne_nil_of_mem inside

/-- Edits leave something where there was something. -/
theorem ne_nil (tame : Tame edit) {s t : Text} (run : Rewrites edit s t) (more : s ≠ []) :
    t ≠ [] := by
  refine run.preserves (P := (· ≠ [])) (fun s t step _ => ?_) more
  obtain ⟨front, back, made⟩ := step
  simp [tame.new_ne_nil made]

theorem staysOpen_step (tame : Tame edit) {mark : Char} (known : mark = tick ∨ mark = '~')
    {run : Nat} {s t : Text}
    (step : EditStep edit s t) (stays : StaysOpen mark run s) : StaysOpen mark run t := by
  obtain ⟨front, back, made⟩ := step
  rename_i old new
  obtain ⟨init, last, front'⟩ := Text.exists_last_row front
  obtain ⟨first, tail, back'⟩ := Text.exists_first_row back
  obtain ⟨outer, inner, old'⟩ := Text.exists_last_row old
  have new' : Text.rows new = [] ++ [new] := Text.rows_eq_singleton (tame.rows old new made)
  have after : Text.rows (front ++ (new ++ back)) = init ++ (last ++ (new ++ first)) :: tail :=
    Text.rows_append front' (Text.rows_append new' back')
  obtain ⟨middle, more, before⟩ : ∃ middle, middle ≠ [] ∧
    Text.rows (front ++ (old ++ back)) = init ++ (middle ++ tail) := by
    have right := Text.rows_append old' back'
    cases outer with
    | nil =>
      exact ⟨[last ++ (inner ++ first)], by simp, by rw [Text.rows_append front' right]; simp⟩
    | cons row outer =>
      exact ⟨(last ++ row) :: (outer ++ [inner ++ first]),
        by simp, by rw [Text.rows_append front' right]; simp⟩
  intro row inside
  rw [after, List.dropLast_append_of_ne_nil (by simp), List.mem_append] at inside
  rw [StaysOpen, before, List.dropLast_append_of_ne_nil (by simp [more])] at stays
  rcases inside with early | late
  · exact stays row (List.mem_append_left _ early)
  · cases tail with
    | nil => simp at late
    | cons r tail =>
      rw [List.dropLast_cons_of_ne_nil (by simp), List.mem_cons] at late
      rcases late with rfl | late
      · obtain ⟨c, member, bracket⟩ := tame.marked old new made
        refine Code.closesFence_of_mem (c := c) (by simp [member]) ?_ ?_
        · rcases bracket with rfl | rfl <;> decide
        · rcases bracket with rfl | rfl <;> rcases known with rfl | rfl <;> decide
      · rw [List.dropLast_append_of_ne_nil (by simp)] at stays
        exact stays row (by simp [late])

/-- A fence that is open stays open under edits. -/
theorem staysOpen (tame : Tame edit) {mark : Char} (known : mark = tick ∨ mark = '~') {run : Nat}
    {s t : Text}
    (edits : Rewrites edit s t) (stays : StaysOpen mark run s) : StaysOpen mark run t :=
  edits.preserves (fun _ _ => tame.staysOpen_step known) stays

end Tame

theorem Code.Spannable.rewrites (tame : Tame edit) {s t : Text} (run : Rewrites edit s t)
    (fits : Spannable s) : Spannable t where
  more := tame.ne_nil run fits.more
  ticks := fun inside => fits.ticks (run.mem_of_mem tame.ticks inside)
  row := fun inside => fits.row (run.mem_of_mem tame.rows inside)

namespace Frame

/-- Tame edits never make a content end its frame. -/
theorem holds_rewrites (tame : Tame edit) {frame : Frame} {s t : Text} (run : Rewrites edit s t)
    (holds : frame.Holds s) : frame.Holds t := by
  obtain ⟨shell, plain⟩ := frame
  cases shell with
  | fence first last mark length opens =>
    exact ⟨.inr (by simp [Shell.rowEnd]),
      tame.staysOpen (Code.fence?_inv opens).2 (run.append_right ['\n']) holds.2⟩
  | span length positive => exact Code.Spannable.rewrites tame (run.append_right []) holds
  | literal => exact tame.literal.not_contains (run.append_right []) holds

end Frame

end MarkupActions
