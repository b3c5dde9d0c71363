import MarkupActions.Proofs.Holding
import MarkupActions.Proofs.Stripping

/-!
# A frame at the end of a text

What follows the opening mark of a frame with which a text ends. Mending may put the end of a tag
behind the closing mark, or spoil the row that closes a fence; the region still reaches as far as
anything that matters.
-/

namespace MarkupActions

open Code (tick StaysOpen)

variable {edit : Text → Text → Prop}

theorem ends_unmarked {tail : Text} (only : Ends tail) {c : Char} (other : c ≠ '/' ∧ c ≠ '>') :
    c ∉ tail :=
  fun inside => (only c inside).elim other.1 other.2

/-- Ends of tags with no tag before them are left as they are. -/
theorem Inert.strip_ends {tail : Text} (only : Ends tail) (guarded : Matcher) :
    strip guarded false tail = tail := by
  have prose : Prose tail := by
    refine ⟨ends_unmarked only ?_, ends_unmarked only ?_, ends_unmarked only ?_⟩
    all_goals decide
  have empty : Code.fenceLength? [] = none := by decide
  have step := @strip_prose guarded false tail [] prose (.inr empty)
  rwa [List.append_nil, strip, List.append_nil] at step

/-- A content, the run of backticks that closes it, and ends of tags. -/
def Answered (run : Nat) (s : Text) : Prop :=
  ∃ content tail, s = content ++ (List.replicate run tick ++ tail) ∧ Code.Spannable content ∧
    Ends tail

/-- Nothing but ends of tags stands behind a closing tag of a literal block. -/
def LiteralRemains (s : Text) : Prop :=
  ∀ a front rest, s = a ++ '<' :: (front ++ rest) → Text.lower front = '/' :: Inert.literalName →
    Ends rest

namespace Frame

/-- What may stand between the opening mark of a frame and the end of the text. -/
def Remains (frame : Frame) (s : Text) : Prop :=
  match frame.shell with
  | .fence _ _ mark run _ _ _ _ => StaysOpen mark run s
  | .span run _ => Answered run s
  | .literal .. => LiteralRemains s

/-- A literal block may be closed in any letter case. -/
theorem remains_literal {content name : Text} (lower : Text.lower name = Inert.literalName)
    (holds : Text.contains ('<' :: '/' :: Inert.literalName) (Text.lower content) = false) :
    LiteralRemains (content ++ '<' :: '/' :: (name ++ ['>'])) := by
  have unmarked : ∀ name, Text.lower name = Inert.literalName → '<' ∉ '/' :: name := by
    intro name lower
    have letters : '<' ∉ name := Inert.not_mem_of_literal lower (by decide)
    simp [letters]
  intro a front rest whole named
  obtain ⟨c, found, rfl, slash, inner⟩ := List.map_eq_cons_iff.mp named
  obtain rfl := Text.eq_of_toLower_eq (by decide) slash
  rcases Text.append_eq_append_cons whole with ⟨m, rfl, cut⟩ | ⟨m, rfl, cut⟩
  · rcases Text.append_eq_append_cons cut with ⟨k, early, _⟩ | ⟨k, rfl, _⟩
    · exact False.elim (unmarked found inner (by rw [early]; simp))
    · have inside := Text.contains_lower_iff.mpr ⟨a, '/' :: found, k, rfl, named⟩
      rw [holds] at inside
      cases inside
  · cases m with
    | nil =>
      have split : name ++ ['>'] = found ++ rest := (List.cons.inj (List.cons.inj cut).2).2
      have size := congrArg List.length (lower.trans inner.symm)
      rw [Text.lower, List.length_map, List.length_map] at size
      obtain ⟨_, rfl⟩ := List.append_inj split size
      simp [Ends]
    | cons d m =>
      have tail : '/' :: (name ++ ['>']) = m ++ '<' :: ('/' :: found ++ rest) :=
        (List.cons.inj cut).2
      have inside : '<' ∈ '/' :: name ++ ['>'] := by
        rw [List.cons_append, tail]
        simp
      rcases List.mem_append.mp inside with early | late
      · exact False.elim (unmarked name lower early)
      · exact False.elim ((by decide : '<' ∉ ['>']) late)

theorem remains_closing {frame : Frame} {content : Text} (holds : frame.Holds content) :
    frame.Remains (content ++ frame.closing) := by
  obtain ⟨shell, plain⟩ := frame
  cases shell with
  | fence first last mark run opens closes one row =>
    have stays : StaysOpen mark run (content ++ ['\n']) := holds.2
    have rows : Text.rows (content ++ '\n' :: last) = Text.rows content ++ [last] := by
      rw [Text.rows_append_newline, Text.rows_eq_singleton row]
    have short : Text.rows (content ++ '\n' :: []) = Text.rows content ++ [[]] :=
      Text.rows_append_newline content []
    rw [StaysOpen, short, List.dropLast_concat] at stays
    change StaysOpen mark run (content ++ '\n' :: last)
    rw [StaysOpen, rows, List.dropLast_concat]
    exact stays
  | span run positive =>
    have fits : Code.Spannable (content ++ []) := holds
    rw [List.append_nil] at fits
    exact ⟨content, [], by simp [closing, Shell.rowEnd, Shell.closing], fits, by simp [Ends]⟩
  | literal first stop last blanks opens stops closes =>
    obtain ⟨_, rfl⟩ := plain
    have absent : Text.contains ('<' :: '/' :: Inert.literalName) (Text.lower (content ++ [])) =
        false := holds
    rw [List.append_nil] at absent
    exact remains_literal closes absent

/-- A literal block, opened in any letter case, leaves nothing of the text but ends of tags. -/
theorem region_literal {name s : Text} (same : Text.lower name = Inert.literalName)
    {lineStart : Bool}
    (remains : LiteralRemains s) :
    ∃ region tail, '<' :: (name ++ ['>']) ++ s = region ++ tail ∧ region ≠ [] ∧ Ends tail ∧
      Inert.regionLength? lineStart (region ++ tail) = some region.length := by
  have unmarked : '<' ∉ name ++ ['>'] := by
    have letters : '<' ∉ name := Inert.not_mem_of_literal same (by decide)
    simp [letters]
  have later : ∀ a front rest, s = a ++ '<' :: (front ++ rest) →
    Text.lower front = '/' :: Inert.literalName →
      Ends rest := remains
  have opens : Text.afterLower? ('<' :: Inert.literalName) ('<' :: (name ++ ['>']) ++ s) =
    some ('>' :: s) :=
    Text.afterLower?_eq_some.mpr ⟨'<' :: name, by simp, by rw [← same]; rfl⟩
  have length : ∀ region tail, '<' :: (name ++ ['>']) ++ s = region ++ tail →
      (ClosingTag.firstEnd? Inert.literalName (region ++ tail)).getD (region ++ tail).length =
        region.length →
      Inert.regionLength? lineStart (region ++ tail) = some region.length := by
    intro region tail whole size
    have calm : Code.Calm ('<' :: (name ++ ['>']) ++ s) := Code.calm_cons (by decide) _
    rw [← whole] at size ⊢
    rw [Inert.regionLength?_of_not_code calm (by simp [tick]), Inert.literalLength?, opens]
    simp [← size]
  cases found : ClosingTag.firstEnd? Inert.literalName ('<' :: (name ++ ['>']) ++ s) with
  | none =>
    refine ⟨'<' :: (name ++ ['>']) ++ s, [],
      by rw [List.append_nil], by simp, by simp [Ends], length _ [] ?_ ?_⟩
    · rw [List.append_nil]
    · rw [List.append_nil, found]
      rfl
  | some n =>
    obtain ⟨front, rest, m, whole, closes, rfl⟩ := ClosingTag.firstEnd?_split found
    obtain ⟨mark, blanks, tail, rfl, lower, _, rfl⟩ := ClosingTag.length?_eq_some.mp closes
    have split : '<' :: (name ++ ['>']) ++ s = (front ++ (mark ++ (blanks ++ ['>']))) ++ tail := by
      simp [whole]
    refine ⟨front ++ (mark ++ (blanks ++ ['>'])), tail, split, by simp, ?_, length _ _ split ?_⟩
    · obtain ⟨c, mark, rfl, bracket, slash⟩ := List.map_eq_cons_iff.mp lower
      obtain rfl := Text.eq_of_toLower_eq (by decide) bracket
      have after : Ends (blanks ++ '>' :: tail) := by
        rcases Text.append_eq_append_cons whole with ⟨k, early, cut⟩ | ⟨k, rfl, late⟩
        · cases front with
          | nil =>
            have rest : name ++ ['>'] = k := (List.cons.inj early).2
            obtain ⟨d, mark, rfl, stroke, _⟩ := List.map_eq_cons_iff.mp slash
            obtain rfl := Text.eq_of_toLower_eq (by decide) stroke
            have head : '/' ∈ name := by
              obtain ⟨e, letters, rfl⟩ : ∃ e letters, name = e :: letters := by
                cases name with
                | nil => cases same
                | cons e letters => exact ⟨e, letters, rfl⟩
              rw [← rest] at cut
              rw [(List.cons.inj cut).1]
              exact List.mem_cons_self
            exact False.elim (Inert.not_mem_of_literal same (by decide) head)
          | cons d front =>
            have inside : '<' ∈ name ++ ['>'] := by
              rw [(List.cons.inj early).2]
              simp
            exact False.elim (unmarked inside)
        · exact later k mark _ late slash
      exact fun c inside => after c (by simp [inside])
    · rw [← split, found]
      simp
      omega

/-- The region that opens at the frame leaves nothing of the text but ends of tags. -/
theorem region_remains {frame : Frame} {s : Text} {lineStart : Bool} (remains : frame.Remains s)
    (start : frame.shell.isFence = true → lineStart = true) :
    ∃ region tail, frame.opening ++ s = region ++ tail ∧ region ≠ [] ∧ Ends tail ∧
      Inert.regionLength? lineStart (region ++ tail) = some region.length := by
  obtain ⟨shell, plain⟩ := frame
  cases shell with
  | fence first last mark run opens closes one =>
    have found := Code.fenceLength?_of_open opens one remains
    obtain rfl := start rfl
    refine ⟨first ++ '\n' :: s, [], by simp [opening, Shell.opening], by simp, by simp [Ends], ?_⟩
    rw [List.append_nil]
    simp [Inert.regionLength?, Code.regionLength?, found]
    omega
  | span run positive =>
    obtain ⟨content, tail, rfl, fits, only⟩ := remains
    have ends : tail.head? ≠ some tick := fun head =>
      ends_unmarked only (by decide : tick ≠ '/' ∧ tick ≠ '>') (List.mem_of_head? head)
    refine ⟨List.replicate run tick ++ (content ++ List.replicate run tick), tail,
      by simp [opening, Shell.opening], by simp [fits.more], only, ?_⟩
    have found := Code.regionLength?_span positive fits ends lineStart
    simp only [List.append_assoc, Inert.regionLength?, found]
    simp
  | literal first stop last blanks opens =>
    obtain ⟨rfl, _⟩ := plain
    exact region_literal opens remains

end Frame

/-- Tame edits leave what remains of a literal block as it should be. -/
theorem Tame.literalRemains (tame : Tame edit) {s t : Text} (run : Rewrites edit s t)
    (remains : LiteralRemains s) : LiteralRemains t := by
  rintro a front rest rfl lower
  obtain ⟨a', rest', rfl, later⟩ := tame.literal _ _ _ _ lower run
  exact later.preserves tame.ends (remains a' front rest' rfl lower)

end MarkupActions
