import MarkupActions.Proofs.Shadows

/-!
# Markers in a text that is cut

A marker is seen before a cut if nothing that is cut off goes on from its word. No finishing marker
reaches over an angle bracket that opens, so in front of one both parts show what the whole shows.
-/

namespace MarkupActions.Hunk

variable {mark : Char} {word s u v : Text} {n : Nat}

/-- A marker is seven marks, blanks, and a word that ends there. -/
theorem markerLength?_eq_some (dark : word.head?.any Text.isSpaceOrTab = false) (more : word ≠ []) :
    markerLength? mark word s = some n ↔
      ∃ blanks rest, s = List.replicate 7 mark ++ (blanks ++ (word ++ rest)) ∧
        (∀ c ∈ blanks, Text.isSpaceOrTab c = true) ∧ rest.head?.any Text.isWord = false ∧
        n = 7 + blanks.length + word.length := by
  have head : ∀ rest, (word ++ rest).head?.any Text.isSpaceOrTab = false := by
    intro rest
    obtain ⟨c, tail, rfl⟩ := List.exists_cons_of_ne_nil more
    exact dark
  constructor
  · intro found
    unfold markerLength? at found
    split at found
    · cases found
    · rename_i afterMarks marks
      split at found
      · cases found
      · rename_i rest afterBlanks
        split at found
        · cases found
        · rename_i ends
          have whole := List.isPrefixOf?_eq_some_iff_append_eq.mp marks
          have named := List.isPrefixOf?_eq_some_iff_append_eq.mp afterBlanks
          have cut := List.takeWhile_append_dropWhile (p := Text.isSpaceOrTab) (l := afterMarks)
          rw [← named] at cut
          refine ⟨afterMarks.takeWhile Text.isSpaceOrTab, rest, by rw [cut, whole],
            fun c inside => List.mem_takeWhile_imp inside, Bool.eq_false_iff.mpr ends, ?_⟩
          rw [← Option.some.inj found, ← whole, ← cut]
          simp only [List.length_append, List.length_replicate]
          rw [cut]
          omega
  · rintro ⟨blanks, rest, rfl, blank, ends, rfl⟩
    have marks := List.isPrefixOf?_eq_some_iff_append_eq.mpr
      (rfl : List.replicate 7 mark ++ (blanks ++ (word ++ rest)) = _)
    have named := List.isPrefixOf?_eq_some_iff_append_eq.mpr (rfl : word ++ rest = _)
    have passed := Text.dropWhile_exact blank (head rest)
    unfold markerLength?
    simp only [marks, passed, named, ends, Bool.false_eq_true, if_false, List.length_append,
      List.length_replicate, Option.some.injEq]
    omega

/-- A marker stays one if its word does not go on. -/
theorem markerLength?_append (dark : word.head?.any Text.isSpaceOrTab = false) (more : word ≠ [])
    (ends : v.head?.any Text.isWord = false) (found : markerLength? mark word u = some n) :
    markerLength? mark word (u ++ v) = some n := by
  rw [markerLength?_eq_some dark more] at found ⊢
  obtain ⟨blanks, rest, rfl, blank, stops, size⟩ := found
  refine ⟨blanks, rest ++ v, by simp, blank, ?_, size⟩
  cases rest with
  | nil => exact ends
  | cons c rest => exact stops

/-- No marker reaches over a character that none is made of. -/
theorem markerLength?_append_cons {c : Char} (dark : word.head?.any Text.isSpaceOrTab = false)
    (more : word ≠ [])
    (unmarked : c ≠ mark) (unspaced : Text.isSpaceOrTab c = false) (unlettered : c ∉ word)
    (ends : Text.isWord c = false) : markerLength? mark word
    (u ++ c :: v) = markerLength? mark word u := by
  refine Option.ext fun n => ⟨fun found => ?_, markerLength?_append dark more (by simpa using ends)⟩
  rw [markerLength?_eq_some dark more] at found ⊢
  obtain ⟨blanks, rest, whole, blank, stops, size⟩ := found
  have outside : c ∉ List.replicate 7 mark ++ (blanks ++ word) := by
    simp only [List.mem_append, List.mem_replicate, not_or]
    refine ⟨fun marked => unmarked marked.2, fun inside => ?_, unlettered⟩
    rw [blank c inside] at unspaced
    cases unspaced
  have cut : (List.replicate 7 mark ++ (blanks ++ word)) ++ rest = u ++ c :: v := by
    rw [whole]
    simp
  rcases Text.append_eq_append_cons cut with ⟨m, front, _⟩ | ⟨m, front, back⟩
  · exact False.elim (outside (by rw [front]; simp))
  · refine ⟨blanks, m, by rw [front]; simp, blank, ?_, size⟩
    cases m with
    | nil => rfl
    | cons d m =>
      rw [back] at stops
      exact stops

/-- A marker begins with its seven marks. -/
theorem marks_of_markerLength? (found : (markerLength? mark word s).isSome = true) :
    List.replicate 7 mark <+: s := by
  unfold markerLength? at found
  split at found
  · cases found
  · rename_i rest marks
    exact ⟨rest, List.isPrefixOf?_eq_some_iff_append_eq.mp marks⟩

theorem markerLength?_of_ne {c : Char} (other : c ≠ mark) (s : Text) :
    markerLength? mark word (c :: s) = none := by
  simp [markerLength?, List.isPrefixOf?, List.replicate, Ne.symm other]

/-- Where a text is cut at a character that no marker is made of, its markers are those of both
parts. -/
theorem count_append_cons {c : Char} (dark : word.head?.any Text.isSpaceOrTab = false)
    (more : word ≠ [])
    (unmarked : c ≠ mark) (unspaced : Text.isSpaceOrTab c = false) (unlettered : c ∉ word)
    (ends : Text.isWord c = false)
    (u v : Text) : count (markerLength? mark word) (u ++ c :: v) =
      count (markerLength? mark word) u + count (markerLength? mark word) v := by
  induction u with
  | nil => simp [count, markerLength?_of_ne unmarked]
  | cons d u ih =>
    have here := @markerLength?_append_cons mark word
      (d :: u) v c dark more unmarked unspaced unlettered ends
    rw [List.cons_append] at here
    rw [List.cons_append, count, count, here, ih]
    omega

/-- Without seven marks in a row there is no marker. -/
theorem count_of_few (few : ¬ List.replicate 7 mark <:+: s) :
    count (markerLength? mark word) s = 0 := by
  induction s with
  | nil => rfl
  | cons c s ih =>
    have rest := ih fun inside => few (inside.trans (List.suffix_cons c s).isInfix)
    have none : (markerLength? mark word (c :: s)).isSome = false :=
      Bool.eq_false_iff.mpr fun found => few (marks_of_markerLength? found).isInfix
    simp [count, none, rest]

theorem finish?_bracket : finish? (u ++ '<' :: v) = finish? u :=
  markerLength?_append_cons (by decide) (by decide) (by decide) (by decide) (by decide) (by decide)

theorem opening?_append (ends : v.head?.any Text.isWord = false)
    (found : (opening? u).isSome = true) :
    (opening? (u ++ v)).isSome = true := by
  obtain ⟨n, length⟩ := Option.isSome_iff_exists.mp found
  exact Option.isSome_iff_exists.mpr ⟨n, markerLength?_append (by decide) (by decide) ends length⟩

theorem finish?_of_ne {c : Char} (other : c ≠ '>') (s : Text) : finish? (c :: s) = none :=
  markerLength?_of_ne other s

theorem count_finish_append {u : Text} (brackets : '>' ∉ u) (s : Text) :
    count finish? (u ++ s) = count finish? s := by
  induction u with
  | nil => rfl
  | cons c u ih =>
    simp only [List.mem_cons, not_or] at brackets
    rw [List.cons_append, count, finish?_of_ne (Ne.symm brackets.1), ih brackets.2]
    simp

/-- The finishing markers of a text that is cut at an angle bracket are those of both parts. -/
theorem count_finish_bracket (u v : Text) :
    count finish? (u ++ '<' :: v) = count finish? u + count finish? v :=
  count_append_cons (by decide) (by decide) (by decide) (by decide) (by decide) (by decide) u v

/-- All markers of a text that is cut at a newline are those of both parts. -/
theorem count_newline (u v : Text) :
    count opening? (u ++ '\n' :: v) = count opening? u + count opening? v ∧
      count finish? (u ++ '\n' :: v) = count finish? u + count finish? v :=
  ⟨count_append_cons (by decide) (by decide) (by decide) (by decide) (by decide) (by decide) u v,
    count_append_cons (by decide) (by decide) (by decide) (by decide) (by decide) (by decide) u v⟩

/-- An opening marker before a cut stays one if its word does not go on. -/
theorem count_opening_le (ends : v.head?.any Text.isWord = false) :
    count opening? u ≤ count opening? (u ++ v) := by
  induction u with
  | nil => exact Nat.zero_le _
  | cons c u ih =>
    rw [List.cons_append, count, count]
    refine Nat.add_le_add ?_ ih
    by_cases here : (opening? (c :: u)).isSome = true
    · have stays := opening?_append ends here
      rw [List.cons_append] at stays
      simp [here, stays]
    · simp [here]

/-- Before an angle bracket up to which no marker has ended there is none. -/
theorem count_finish_eq_zero (late : ∀ n, finishEnd? (u ++ '<' :: v) = some n → u.length < n) :
    count finish? u = 0 := by
  induction u with
  | nil => rfl
  | cons c u ih =>
    have here := @finish?_bracket (c :: u) v
    rw [List.cons_append] at here late
    rw [finishEnd?, here] at late
    cases found : finish? (c :: u) with
    | some n =>
      have past := late n (by rw [found])
      obtain ⟨blanks, rest, whole, _, _, rfl⟩ :=
        (markerLength?_eq_some (by decide) (by decide)).mp found
      rw [whole] at past
      simp only [List.length_append, List.length_replicate] at past
      omega
    | none =>
      rw [found] at late
      have rest := ih fun n later => by
        have past := late (n + 1) (by simp [later])
        simp only [List.length_cons] at past
        omega
      simp [count, found, rest]

/-- A hunk that is open before one angle bracket is open before all others up to where it is
finished. -/
theorem shadow_covers {front middle rest : Text} {stop : Nat}
    (covered : shadow (front ++ '<' :: (middle ++ '<' :: rest)) front.length = some stop)
    (before : front.length + 1 + middle.length < stop) :
    (shadow (front ++ '<' :: (middle ++ '<' :: rest)) (front.length + 1 + middle.length)).isSome =
    true := by
  simp only [shadow, List.take_left, List.drop_left] at covered
  split at covered
  · cases covered
  · rename_i open'
    have late : ∀ n, finishEnd? (middle ++ '<' :: rest) = some n → middle.length < n := by
      intro n found
      rw [finishEnd?, finish?_of_ne (by decide), found] at covered
      simp only [Option.map_some, Option.getD_some, Option.some.injEq] at covered
      omega
    have opened : count opening? front ≤ count opening? (front ++ '<' :: middle) :=
      count_opening_le (show Text.isWord '<' = false by decide)
    have finished := count_finish_bracket front middle
    rw [count_finish_eq_zero late] at finished
    have cut : (front ++ '<' :: (middle ++ '<' :: rest)).take (front.length + 1 + middle.length) =
        front ++ '<' :: middle := by
      have split : front ++ '<' :: (middle ++ '<' :: rest) = (front ++ '<' :: middle) ++
        '<' :: rest := by simp
      rw [split, List.take_left' (by simp; omega)]
    have more : ¬ count opening? (front ++ '<' :: middle) ≤ count finish?
      (front ++ '<' :: middle) := by omega
    simp only [shadow, cut, if_neg more, Option.isSome_some]

end MarkupActions.Hunk
