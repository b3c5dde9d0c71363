import MarkupActions.Text.Basic

/-!
# Cutting texts

Where a text is cut by the first character that lacks a property, what follows that character does
not matter.
-/

namespace MarkupActions.Text

variable {p : Char → Bool}

/-- What is left once a nonempty front has been passed, whose first character has been taken off
already. -/
theorem drop_front {c : Char} {s front tail : Text} (whole : c :: s = front ++ tail)
    (pos : 0 < front.length) :
    s.drop (front.length - 1) = tail := by
  cases front with
  | nil => simp at pos
  | cons d front =>
    obtain ⟨rfl, rfl⟩ := List.cons.inj whole
    simp

theorem drop_takeWhile_length (s : Text) : s.drop (s.takeWhile p).length = s.dropWhile p := by
  induction s with
  | nil => rfl
  | cons c s ih =>
    by_cases passed : p c
    · simp [passed, ih]
    · simp [passed]

/-- A text that is put together of two has each of its characters in one of them. -/
theorem append_eq_append_cons {x y a b : Text} {c : Char} (whole : x ++ y = a ++ c :: b) :
    (∃ m, x = a ++ c :: m ∧ b = m ++ y) ∨ ∃ m, a = x ++ m ∧ y = m ++ c :: b := by
  rcases List.append_eq_append_iff.mp whole with ⟨m, front, back⟩ | ⟨m, front, back⟩
  · exact .inr ⟨m, front, back⟩
  · cases m with
    | nil => exact .inr ⟨[], by simpa using front.symm, by simpa using back.symm⟩
    | cons d m =>
      obtain ⟨rfl, rfl⟩ := List.cons.inj back
      exact .inl ⟨m, front, rfl⟩

/-- Two tags that are the same have a slash both or neither, if no name has a slash in it. -/
theorem slash_cancel {slash slash' u v x y : Text} (slashes : slash = [] ∨ slash = ['/'])
    (slashes' : slash' = [] ∨ slash' = ['/']) (left : u ≠ [] ∧ '/' ∉ u) (right : v ≠ [] ∧ '/' ∉ v)
    (whole : slash ++ (u ++ x) = slash' ++ (v ++ y)) : slash = slash' ∧ u ++ x = v ++ y := by
  obtain ⟨c, u, rfl⟩ := List.exists_cons_of_ne_nil left.1
  obtain ⟨d, v, rfl⟩ := List.exists_cons_of_ne_nil right.1
  rcases slashes with rfl | rfl
  · rcases slashes' with rfl | rfl
    · exact ⟨rfl, whole⟩
    · exact False.elim (left.2 (by rw [(List.cons.inj whole).1]; exact List.mem_cons_self))
  · rcases slashes' with rfl | rfl
    · exact False.elim (right.2 (by rw [← (List.cons.inj whole).1]; exact List.mem_cons_self))
    · exact ⟨rfl, (List.cons.inj whole).2⟩

/-- A text without a character stands on one side of it. -/
theorem infix_append_cons {w a b : Text} {c : Char} (other : c ∉ w) (inside : w <:+: a ++ c :: b) :
    w <:+: a ∨ w <:+: b := by
  obtain ⟨x, y, whole⟩ := inside
  rcases append_eq_append_cons whole with ⟨m, front, rfl⟩ | ⟨m, rfl, _⟩
  · rcases append_eq_append_cons front with ⟨k, _, rfl⟩ | ⟨k, _, middle⟩
    · exact .inr ⟨k, y, rfl⟩
    · exact False.elim (other (by rw [middle]; simp))
  · exact .inl ⟨x, m, rfl⟩

theorem splitBy_ne_nil (s : Text) : splitBy p s ≠ [] := by
  cases s with
  | nil => simp [splitBy]
  | cons c s =>
    simp only [splitBy]
    split
    · simp
    · split <;> simp

theorem rows_ne_nil (s : Text) : rows s ≠ [] := splitBy_ne_nil s

theorem exists_last_row (s : Text) : ∃ front last, rows s = front ++ [last] :=
  ⟨_, _, (List.dropLast_concat_getLast (rows_ne_nil s)).symm⟩

theorem exists_first_row (s : Text) : ∃ first back, rows s = first :: back :=
  List.exists_cons_of_ne_nil (rows_ne_nil s)

theorem rows_newline (s : Text) : rows ('\n' :: s) = [] :: rows s := by
  simp [rows, splitBy]

theorem rows_cons {c : Char} (same : c ≠ '\n') {s first : Text} {back : List Text}
    (whole : rows s = first :: back) :
    rows (c :: s) = (c :: first) :: back := by
  simp only [rows] at whole
  simp [rows, splitBy, same, whole]

/-- Where two texts meet, the last row of the one runs into the first row of the other. -/
theorem rows_append {a b last first : Text} {front back : List Text}
    (left : rows a = front ++ [last])
    (right : rows b = first :: back) : rows (a ++ b) = front ++ (last ++ first) :: back := by
  induction a generalizing front last with
  | nil =>
    cases front with
    | nil => simp_all [rows, splitBy]
    | cons row front => simp [rows, splitBy] at left
  | cons c a ih =>
    by_cases newline : c = '\n'
    · subst newline
      rw [rows_newline] at left
      cases front with
      | nil => exact False.elim (rows_ne_nil a (List.cons.inj left).2)
      | cons row front =>
        obtain ⟨rfl, rest⟩ := List.cons.inj left
        rw [List.cons_append, rows_newline, ih rest]
        rfl
    · obtain ⟨inner, tail, whole⟩ := exists_first_row a
      rw [rows_cons newline whole] at left
      cases front with
      | nil =>
        obtain ⟨rfl, rfl⟩ := List.cons.inj left
        have joined := @ih inner [] whole
        rw [List.cons_append, rows_cons newline joined]
        rfl
      | cons row front =>
        obtain ⟨rfl, rfl⟩ := List.cons.inj left
        have joined := @ih last (inner :: front) whole
        rw [List.cons_append, rows_cons newline joined]
        rfl

theorem rows_eq_singleton {s : Text} (one : '\n' ∉ s) : rows s = [s] := by
  induction s with
  | nil => rfl
  | cons c s ih =>
    simp only [List.mem_cons, not_or] at one
    exact rows_cons (Ne.symm one.1) (ih one.2)

theorem rows_append_newline (a b : Text) : rows (a ++ '\n' :: b) = rows a ++ rows b := by
  obtain ⟨front, last, left⟩ := exists_last_row a
  rw [rows_append left (rows_newline b), left]
  simp

/-- Rows are pieces of their text. -/
theorem infix_of_mem_rows {row s : Text} (listed : row ∈ rows s) : row <:+: s := by
  have pieces : ∀ s first back, rows s = first :: back → first <+: s ∧
    ∀ row ∈ back, row <:+: s := by
    intro s
    induction s with
    | nil =>
      intro first back whole
      obtain ⟨rfl, rfl⟩ := List.cons.inj whole
      simp
    | cons c s ih =>
      intro first back whole
      obtain ⟨inner, later, split⟩ := exists_first_row s
      obtain ⟨head, tail⟩ := ih inner later split
      by_cases newline : c = '\n'
      · subst newline
        rw [rows_newline, split] at whole
        obtain ⟨rfl, rfl⟩ := List.cons.inj whole
        refine ⟨List.nil_prefix, fun row inside => ?_⟩
        rcases List.mem_cons.mp inside with rfl | inside
        · exact head.isInfix.trans (List.suffix_cons _ _).isInfix
        · exact (tail row inside).trans (List.suffix_cons _ _).isInfix
      · rw [rows_cons newline split] at whole
        obtain ⟨rfl, rfl⟩ := List.cons.inj whole
        refine ⟨(List.prefix_cons_inj c).mpr head, fun row inside => ?_⟩
        exact (tail row inside).trans (List.suffix_cons _ _).isInfix
  obtain ⟨first, back, whole⟩ := exists_first_row s
  obtain ⟨head, tail⟩ := pieces s first back whole
  rw [whole] at listed
  rcases List.mem_cons.mp listed with rfl | inside
  · exact head.isInfix
  · exact tail row inside

/-- How many characters rows take up, with a newline behind each. -/
def rowsLength : List Text → Nat
  | [] => 0
  | row :: rows => row.length + 1 + rowsLength rows

@[simp] theorem rowsLength_nil : rowsLength [] = 0 := rfl

@[simp] theorem rowsLength_cons (row : Text) (rows : List Text) :
    rowsLength (row :: rows) = row.length + 1 + rowsLength rows := rfl

@[simp] theorem rowsLength_append (front back : List Text) :
    rowsLength (front ++ back) = rowsLength front + rowsLength back := by
  induction front with
  | nil => simp
  | cons row front ih => simp [ih, Nat.add_assoc]

/-- The rows of a text with their newlines, the last one counted too. -/
theorem length_rows (s : Text) : rowsLength (rows s) = s.length + 1 := by
  induction s with
  | nil => rfl
  | cons c s ih =>
    by_cases newline : c = '\n'
    · subst newline
      rw [rows_newline]
      simp [ih, Nat.add_comm]
    · obtain ⟨first, back, whole⟩ := exists_first_row s
      rw [whole] at ih
      rw [rows_cons newline whole]
      simp only [rowsLength_cons, List.length_cons] at ih ⊢
      omega

theorem mem_dropWhile {c : Char} {s : Text} (inside : c ∈ s) (stops : p c = false) :
    c ∈ s.dropWhile p := by
  induction s with
  | nil => cases inside
  | cons d s ih =>
    by_cases passed : p d
    · rw [List.dropWhile_cons_of_pos passed]
      rcases List.mem_cons.mp inside with rfl | inside
      · rw [stops] at passed
        cases passed
      · exact ih inside
    · rw [List.dropWhile_cons_of_neg passed]
      exact inside

theorem head_dropWhile (s : Text) : (s.dropWhile p).head?.any p = false := by
  induction s with
  | nil => rfl
  | cons c s ih =>
    by_cases passed : p c
    · rw [List.dropWhile_cons_of_pos passed, ih]
    · rw [List.dropWhile_cons_of_neg passed]
      simpa using passed

/-- A text is what is passed over at its head, and what that stops at. -/
theorem exists_run (p : Char → Bool) (s : Text) :
    ∃ run rest, s = run ++ rest ∧ (∀ c ∈ run, p c = true) ∧ rest.head?.any p = false :=
  ⟨s.takeWhile p, s.dropWhile p, List.takeWhile_append_dropWhile.symm,
    fun c inside => List.all_eq_true.mp List.all_takeWhile c inside, head_dropWhile s⟩

/-- What is passed over is cut off where it stops. -/
theorem takeWhile_exact {front rest : Text} (passed : ∀ c ∈ front, p c = true)
    (stop : rest.head?.any p = false) :
    (front ++ rest).takeWhile p = front := by
  rw [List.takeWhile_append_of_pos passed]
  cases rest with
  | nil => simp
  | cons c rest => simp [show p c = false by simpa using stop]

theorem dropWhile_exact {front rest : Text} (passed : ∀ c ∈ front, p c = true)
    (stop : rest.head?.any p = false) :
    (front ++ rest).dropWhile p = rest := by
  rw [List.dropWhile_append_of_pos passed]
  cases rest with
  | nil => rfl
  | cons c rest => simp [show p c = false by simpa using stop]

theorem takeWhile_append_of_stop {u b : Text} (stop : b.head?.any p = false) :
    (u ++ b).takeWhile p = u.takeWhile p := by
  induction u with
  | nil => simpa using @takeWhile_exact p [] b (by simp) stop
  | cons c u ih =>
    by_cases passed : p c
    · simp [passed, ih]
    · simp [passed]

theorem dropWhile_append_of_stop {u b : Text} (stop : b.head?.any p = false) :
    (u ++ b).dropWhile p = u.dropWhile p ++ b := by
  induction u with
  | nil => simpa using @dropWhile_exact p [] b (by simp) stop
  | cons c u ih =>
    by_cases passed : p c
    · simp [passed, ih]
    · simp [passed]

/-- More text behind does not change how a text begins. -/
theorem head_append {v : Text} (more : v ≠ []) (stop : v.head?.any p = false) (s : Text) :
    (v ++ s).head?.any p = false := by
  obtain ⟨c, v, rfl⟩ := List.exists_cons_of_ne_nil more
  exact stop

theorem mem_trim {c : Char} {s : Text} (inside : c ∈ s) (dark : isBlank c = false) :
    c ∈ trim s := by
  have front : c ∈ (trimStart s).reverse := List.mem_reverse.mpr (mem_dropWhile inside dark)
  exact List.mem_reverse.mpr (mem_dropWhile front dark)

theorem trim_infix (s : Text) : trim s <:+: s := by
  have front : trimStart s <:+ s := List.dropWhile_suffix _
  have back : (trimStart s).reverse.dropWhile isBlank <:+ (trimStart s).reverse :=
    List.dropWhile_suffix _
  rw [← List.reverse_prefix, List.reverse_reverse] at back
  exact back.isInfix.trans front.isInfix

/-- Trimming takes off the white space around a text that neither begins nor ends with any. -/
theorem trim_append {front s back : Text} (before : ∀ c ∈ front, isBlank c = true)
    (behind : ∀ c ∈ back, isBlank c = true)
    (more : s ≠ []) (head : s.head?.any isBlank = false) (last : s.getLast?.any isBlank = false) :
    trim (front ++ (s ++ back)) = s := by
  have start : trimStart (front ++ (s ++ back)) = s ++ back :=
    dropWhile_exact before (head_append more head back)
  have passed : ∀ c ∈ back.reverse, isBlank c = true :=
    fun c inside => behind c (List.mem_reverse.mp inside)
  have stop : s.reverse.head?.any isBlank = false := by rwa [List.head?_reverse]
  rw [trim, start, trimEnd, List.reverse_append, dropWhile_exact passed stop, List.reverse_reverse]

end MarkupActions.Text
