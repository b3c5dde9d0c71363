import MarkupActions.Proofs.Regions

/-!
# Shells of inert regions

The marks around an inert region in all the ways to write them: the rows of a fence, runs of
backticks, the tags of a literal block. What stands between them is one region with them, whatever
it is, so long as it does not end the region itself.
-/

namespace MarkupActions

open Code (tick StaysOpen EndsRow)

namespace Code

/-- What an inline span may hold, however many backticks are around it. -/
structure Spannable (content : Text) : Prop where
  more : content ≠ []
  ticks : tick ∉ content
  row : '\n' ∉ content

instance (content : Text) : Decidable (Spannable content) :=
  decidable_of_iff (content ≠ [] ∧ tick ∉ content ∧ '\n' ∉ content)
    ⟨fun ⟨more, ticks, row⟩ => ⟨more, ticks, row⟩,
      fun fits => ⟨fits.more, fits.ticks, fits.row⟩⟩

/-- What is left of a run of backticks answers an open span if nothing more of the kind follows. -/
theorem spanEnd?_run {seen more : Nat} {t : Text} (ends : t.head? ≠ some tick) :
    spanEnd? (seen + more) seen (List.replicate more tick ++ t) = some more := by
  induction more generalizing seen with
  | zero =>
    cases t with
    | nil => simp [spanEnd?]
    | cons c t =>
      have other : c ≠ tick := by simpa using ends
      simp [spanEnd?, other]
  | succ more ih =>
    have rest := @ih (seen + 1)
    rw [show seen + 1 + more = seen + (more + 1) by omega] at rest
    simp [List.replicate_succ, spanEnd?, rest]

theorem spanEnd?_content {run : Nat} (positive : 0 < run) {s t : Text} (unmarked : tick ∉ s)
    (one : '\n' ∉ s) (ends : t.head? ≠ some tick) :
    spanEnd? run 0 (s ++ (List.replicate run tick ++ t)) = some (s.length + run) := by
  induction s with
  | nil => simpa using @spanEnd?_run 0 run t ends
  | cons c s ih =>
    simp only [List.mem_cons, not_or] at unmarked one
    have never : ¬ 0 = run := by omega
    simp [spanEnd?, Ne.symm unmarked.1, Ne.symm one.1, never, ih unmarked.2 one.2]
    omega

/-- Backticks that are answered on the same row open no fence. -/
theorem fence?_of_answered {run : Nat} (positive : 0 < run) {rest : Text}
    (length : runLength tick (List.replicate run tick ++ rest) = run)
    (answered : 3 ≤ run → Text.contains [tick, tick, tick] rest = true) :
    fence? (List.replicate run tick ++ rest) = none := by
  obtain ⟨n, rfl⟩ : ∃ n, run = n + 1 := ⟨run - 1, by omega⟩
  have split : List.replicate (n + 1) tick ++ rest = tick :: (List.replicate n tick ++ rest) := rfl
  have head : (List.replicate (n + 1) tick ++ rest).dropWhile (· == ' ') =
      tick :: (List.replicate n tick ++ rest) := by
    rw [split, List.dropWhile_cons_of_neg (by decide)]
  by_cases few : n + 1 < 3
  · refine fence?_of_head head fun _ => ?_
    rw [← split, length]
    exact few
  · have inside := answered (by omega)
    have back : (tick :: (List.replicate n tick ++ rest)).drop (n + 1) = rest := by simp
    have kind : ¬ (tick ≠ tick ∧ tick ≠ '~') := fun other => other.1 rfl
    rw [split] at length
    simp [fence?, head, length, back, few, inside]

theorem runLength_replicate {run : Nat} {s : Text} (ends : s.head? ≠ some tick) :
    runLength tick (List.replicate run tick ++ s) = run := by
  have ticks : ∀ d ∈ List.replicate run tick, (d == tick) = true := by simp
  have stop : s.head?.any (· == tick) = false := by
    cases s with
    | nil => rfl
    | cons c s => simpa using ends
  rw [runLength, Text.takeWhile_exact ticks stop, List.length_replicate]

section Spannable

variable {run : Nat} {content tail : Text}

theorem Spannable.head? (fits : Spannable content) (s : Text) :
    (content ++ s).head? ≠ some tick := by
  obtain ⟨c, content, rfl⟩ := List.exists_cons_of_ne_nil fits.more
  intro head
  exact fits.ticks (by rw [← Option.some.inj head]; exact List.mem_cons_self)

/-- No fence opens with the backticks of a span, however many they are. -/
theorem fenceLength?_span (positive : 0 < run) (fits : Spannable content) :
    fenceLength? (List.replicate run tick ++ (content ++ (List.replicate run tick ++ tail))) =
      none := by
  have unbroken : ∀ d ∈ List.replicate run tick ++ (content ++ List.replicate run tick),
      (d != '\n') = true := by
    intro d inside
    simp only [List.mem_append, List.mem_replicate] at inside
    rcases inside with ⟨_, rfl⟩ | inside | ⟨_, rfl⟩
    · decide
    · rw [bne_iff_ne]
      rintro rfl
      exact fits.row inside
    · decide
  have row : (List.replicate run tick ++ (content ++ (List.replicate run tick ++ tail))).takeWhile
      (· != '\n') =
        List.replicate run tick ++ (content ++ (List.replicate run tick ++
          tail.takeWhile (· != '\n'))) := by
    have split : (List.replicate run tick ++ (content ++ List.replicate run tick) ++
        tail).takeWhile (· != '\n') =
          List.replicate run tick ++ (content ++ List.replicate run tick) ++
            tail.takeWhile (· != '\n') := List.takeWhile_append_of_pos unbroken
    simpa only [List.append_assoc] using split
  have answered : 3 ≤ run → Text.contains [tick, tick, tick]
      (content ++ (List.replicate run tick ++ tail.takeWhile (· != '\n'))) = true := by
    intro many
    obtain ⟨n, rfl⟩ := Nat.exists_eq_add_of_le many
    rw [Text.contains_iff_within, List.replicate_add]
    exact ⟨content, List.replicate n tick ++ tail.takeWhile (· != '\n'),
      by simp [List.replicate]⟩
  have unopened := fence?_of_answered positive (runLength_replicate (fits.head? _)) answered
  obtain ⟨back, whole⟩ := exists_rows_takeWhile
    (List.replicate run tick ++ (content ++ (List.replicate run tick ++ tail)))
  rw [fenceLength?, whole, row]
  simp only [unopened, Option.map_none]

/-- However many backticks open a span, as many close it; if they are three or more, no fence opens
with them. -/
theorem regionLength?_span (positive : 0 < run) (fits : Spannable content)
    (ends : tail.head? ≠ some tick) (lineStart : Bool) :
    regionLength? lineStart
        (List.replicate run tick ++ (content ++ (List.replicate run tick ++ tail))) =
      some (run + (content.length + run)) := by
  have closes := spanEnd?_content positive fits.ticks fits.row ends
  have back : (List.replicate run tick ++ (content ++ (List.replicate run tick ++ tail))).drop run =
      content ++ (List.replicate run tick ++ tail) := List.drop_left' (by simp)
  rw [regionLength?_of_unfenced (fenceLength?_span positive fits), spanLength?,
    runLength_replicate (fits.head? _), back, closes, if_neg (by omega)]
  rfl

end Spannable

/-- Whole rows, the row that closes them, and what comes after it. -/
theorem rows_content {mark : Char} {run : Nat} {content last after : Text}
    (rows : content = [] ∨ content.getLast? = some '\n') (stays : StaysOpen mark run content)
    (one : '\n' ∉ last) (ends : EndsRow after) :
    ∃ front back, Text.rows (content ++ (last ++ after)) = front ++ last :: back ∧
      (∀ row ∈ front, closesFence mark run row = false) ∧
      Text.rowsLength front = content.length := by
  obtain ⟨back, tail⟩ := rows_of_endsRow one ends
  rcases rows with rfl | newline
  · exact ⟨[], back, tail, by simp, rfl⟩
  · obtain ⟨content, rfl⟩ := List.getLast?_eq_some_iff.mp newline
    refine ⟨Text.rows content, back, ?_, ?_, ?_⟩
    · rw [List.append_assoc, List.singleton_append, Text.rows_append_newline, tail]
    · rw [StaysOpen, Text.rows_append_newline] at stays
      simpa [Text.rows, Text.splitBy] using stays
    · rw [Text.length_rows, List.length_append, List.length_singleton]

end Code

/-- The marks around an inert region, in any of the ways to write them. -/
inductive Shell where
  | fence (first last : Text) (mark : Char) (run : Nat)
      (opens : Code.fence? first = some (mark, run))
      (closes : Code.closesFence mark run last = true) (one : '\n' ∉ first) (row : '\n' ∉ last)
  | span (run : Nat) (positive : 0 < run)
  | literal (first : Text) (stop : Char) (last blanks : Text)
      (opens : Text.lower first = Inert.literalName)
      (stops : stop = '>' ∨ Text.isBlank stop = true)
      (closes : Text.lower last = Inert.literalName) (blank : ∀ c ∈ blanks, Text.isBlank c = true)

namespace Shell

def opening : Shell → Text
  | fence first _ _ _ _ _ _ _ => first ++ ['\n']
  | span run _ => List.replicate run tick
  | literal first stop _ _ _ _ _ _ => '<' :: (first ++ [stop])

def closing : Shell → Text
  | fence _ last _ _ _ _ _ _ => last
  | span run _ => List.replicate run tick
  | literal _ _ last blanks _ _ _ _ => '<' :: '/' :: (last ++ (blanks ++ ['>']))

def wrap (shell : Shell) (content : Text) : Text := shell.opening ++ (content ++ shell.closing)

/-- A content without what would end the region before its time. In a fence it is made of whole
rows. -/
def Holds : Shell → Text → Prop
  | fence _ _ mark run _ _ _ _, content =>
    (content = [] ∨ content.getLast? = some '\n') ∧ StaysOpen mark run content
  | span _ _, content => Code.Spannable content
  | literal .., content =>
    Text.contains ('<' :: '/' :: Inert.literalName) (Text.lower content) = false

/-- What may stand around the marks, so that they are marks. -/
def Fits : Shell → (before after : Text) → Prop
  | fence .., before, after => (before = [] ∨ before.getLast? = some '\n') ∧ EndsRow after
  | span _ _, _, after => after.head? ≠ some tick
  | literal .., _, _ => True

variable {shell : Shell} {before content after : Text}

instance (shell : Shell) (content : Text) : Decidable (shell.Holds content) :=
  match shell with
  | fence _ _ mark run _ _ _ _ =>
    inferInstanceAs (Decidable ((content = [] ∨ content.getLast? = some '\n') ∧
      ∀ row ∈ (Text.rows content).dropLast, Code.closesFence mark run row = false))
  | span _ _ => inferInstanceAs (Decidable (Code.Spannable content))
  | literal .. =>
    inferInstanceAs (Decidable (Text.contains ('<' :: '/' :: Inert.literalName)
      (Text.lower content) = false))

/-- What is between the marks is one inert region with them. -/
theorem regionLength?_wrap (holds : shell.Holds content) (fits : shell.Fits before after) :
    Inert.regionLength? (startsRow true before) (shell.wrap content ++ after) =
      some (shell.wrap content).length := by
  cases shell with
  | fence first last mark run opens closes one row =>
    obtain ⟨rows, stays⟩ := holds
    obtain ⟨start, ends⟩ := fits
    obtain ⟨front, back, whole, open', size⟩ := Code.rows_content rows stays row ends
    have found := Code.fenceLength?_of_rows opens one whole open' closes
    have begins : startsRow true before = true := by
      rcases start with rfl | newline
      · rfl
      · simp [startsRow, newline]
    have split : (fence first last mark run opens closes one row).wrap content ++ after =
        first ++ '\n' :: (content ++ (last ++ after)) := by simp [wrap, opening, closing]
    rw [begins, split]
    simp only [Inert.regionLength?, Code.regionLength?, if_true, found, size, wrap, opening,
      closing, List.length_append, List.length_singleton]
  | span run positive =>
    have found := Code.regionLength?_span positive holds fits (startsRow true before)
    have split : (span run positive).wrap content ++ after =
        List.replicate run tick ++ (content ++ (List.replicate run tick ++ after)) := by
      simp [wrap, opening, closing]
    rw [split]
    simp only [Inert.regionLength?, found, wrap, opening, closing, List.length_append,
      List.length_replicate]
  | literal first stop last blanks opens stops closes blank =>
    have found := @Inert.literalLength?_of_closed first last content blanks after stop opens stops
      closes blank holds
    have split : (literal first stop last blanks opens stops closes blank).wrap content =
        '<' :: (first ++ [stop]) ++ content ++ '<' :: '/' :: (last ++ (blanks ++ ['>'])) := by
      simp [wrap, opening, closing]
    have calm : Code.Calm
        ((literal first stop last blanks opens stops closes blank).wrap content ++ after) :=
      Code.calm_cons (by decide) _
    rw [Inert.regionLength?_of_not_code calm (by simp [wrap, opening, tick]), split, found]

theorem wrap_ne_nil (holds : shell.Holds content) : shell.wrap content ≠ [] := by
  cases shell with
  | fence => simp [wrap, opening]
  | span => simp [wrap, holds.more]
  | literal => simp [wrap, opening]

/-- Prose in front of the region has no row at which a fence opens. -/
theorem clear (prose : Prose before) (holds : shell.Holds content)
    (fits : shell.Fits before after) : Clear before (shell.wrap content ++ after) := by
  cases shell with
  | fence =>
    rcases fits.1 with rfl | newline
    · exact ⟨prose.tags, prose.ticks, fun a b whole more =>
        absurd (List.append_eq_nil_iff.mp whole.symm).2 more⟩
    · exact prose.clear (.inl newline)
  | span run positive =>
    refine prose.clear (.inr ?_)
    have unopened := @Code.fenceLength?_span run content after positive holds
    simpa [wrap, opening, closing] using unopened
  | literal => exact prose.clear (.inr (Code.fenceLength?_of_calm (Code.calm_cons (by decide) _)))

end Shell

end MarkupActions
