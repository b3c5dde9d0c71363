import MarkupActions.Block.Extent

/-!
# The closing tag that ends a body

What the search for a closing tag finds is a closing tag that nothing covers, and it finds the first
one if that is not covered.
-/

namespace MarkupActions

variable {mode : ScanMode} {closes? : Text → Option Nat} {body : Text}

theorem closingFrom?_sound {done rest : Text} {skip pos n : Nat} (whole : body = done ++ rest)
    (found : closingFrom? mode closes? body skip done.length rest = some (pos, n)) :
    ∃ front tail, body = front ++ tail ∧ front.length = pos ∧ closes? tail = some n ∧ tail ≠ [] ∧
      shadow mode body pos = none := by
  induction rest generalizing skip done with
  | nil => simp [closingFrom?] at found
  | cons c rest ih =>
    have next : body = (done ++ [c]) ++ rest := by simpa using whole
    have size : (done ++ [c]).length = done.length + 1 := by simp
    cases skip with
    | succ skip =>
      rw [closingFrom?, ← size] at found
      exact ih next found
    | zero =>
      rw [closingFrom?] at found
      split at found
      · rw [← size] at found
        exact ih next found
      · rename_i length closes
        split at found
        · rename_i bare
          obtain ⟨rfl, rfl⟩ := Prod.mk.inj (Option.some.inj found)
          exact ⟨done, c :: rest, whole, rfl, closes, by simp, bare⟩
        · rw [← size] at found
          exact ih next found

/-- What is found is a closing tag that nothing covers. -/
theorem closing?_sound {pos n : Nat} (found : closing? mode closes? body = some (pos, n)) :
    ∃ front tail, body = front ++ tail ∧ front.length = pos ∧ closes? tail = some n ∧ tail ≠ [] ∧
      shadow mode body pos = none :=
  @closingFrom?_sound mode closes? body [] body 0 pos n rfl found

/-- A closing tag stands at the place that is found, and nothing covers it. -/
theorem closing?_at {front tail : Text} {n : Nat}
    (found : closing? mode closes? (front ++ tail) = some (front.length, n)) :
    closes? tail = some n ∧ shadow mode (front ++ tail) front.length = none := by
  obtain ⟨front', tail', whole, size, closes, _, bare⟩ := closing?_sound found
  obtain ⟨rfl, rfl⟩ := List.append_inj whole size.symm
  exact ⟨closes, bare⟩

/-- Nothing is found if all closing tags are covered. -/
theorem closing?_of_covered
    (covered : ∀ front tail n, body = front ++ tail → closes? tail = some n →
      (shadow mode body front.length).isSome = true) : closing? mode closes? body = none := by
  cases found : closing? mode closes? body with
  | none => rfl
  | some place =>
    obtain ⟨pos, n⟩ := place
    obtain ⟨front, tail, whole, rfl, closes, _, bare⟩ := closing?_sound found
    have shaded := covered front tail n whole closes
    rw [bare] at shaded
    cases shaded

theorem closingFrom?_first {done front tail : Text} {n : Nat}
    (whole : body = done ++ (front ++ tail))
    (absent : ∀ a b, front = a ++ b → b ≠ [] → closes? (b ++ tail) = none) (more : tail ≠ [])
    (closes : closes? tail = some n) (bare : shadow mode body (done.length + front.length) = none) :
    closingFrom? mode closes? body 0 done.length (front ++ tail) = some
      (done.length + front.length, n) := by
  induction front generalizing done with
  | nil =>
    obtain ⟨c, tail, rfl⟩ := List.exists_cons_of_ne_nil more
    simp only [List.length_nil, Nat.add_zero] at bare
    simp [closingFrom?, closes, bare]
  | cons c front ih =>
    have here := absent [] (c :: front) rfl (by simp)
    have size : (done ++ [c]).length + front.length = done.length + (c :: front).length := by
      simp
      omega
    have rest := @ih (done ++ [c]) (by simpa using whole)
      (fun a b split => absent (c :: a) b (by rw [split]; rfl)) (by rw [size]; exact bare)
    rw [size] at rest
    simp only [List.cons_append] at here ⊢
    rw [closingFrom?, here]
    simpa using rest

/-- A closing tag is found if it is the first and nothing covers it. -/
theorem closing?_first {front tail : Text} {n : Nat}
    (absent : ∀ a b, front = a ++ b → b ≠ [] → closes? (b ++ tail) = none) (more : tail ≠ [])
    (closes : closes? tail = some n) (bare : shadow mode (front ++ tail) front.length = none) :
    closing? mode closes? (front ++ tail) = some (front.length, n) := by
  have found := @closingFrom?_first mode closes?
    (front ++ tail) [] front tail n rfl absent more closes
    (by simpa using bare)
  simpa [closing?] using found

/-- The body of a closed block ends where the search for its closing tag does. -/
theorem extentOf_eq_closed {tag : OpeningTag} {rest closing : Text}
    (found : extentOf mode tag rest = .closed body closing) :
    tag.closesItself = false ∧ ∃ n back, rest = body ++ back ∧ closing = back.take n ∧
      ClosingTag.length? tag.key back = some n ∧ closing? mode
        (ClosingTag.length? tag.key) rest = some (body.length, n) := by
  unfold extentOf at found
  split at found
  · cases found
  · rename_i open'
    split at found
    · cases found
    · rename_i pos n closes
      obtain ⟨front, back, rfl, rfl, here, _⟩ := closing?_sound closes
      simp only [List.take_left, List.drop_left] at found
      split at found
      · cases found
      · obtain ⟨rfl, rfl⟩ := Extent.closed.inj found
        exact ⟨Bool.eq_false_iff.mpr open', n, back, rfl, rfl, here, closes⟩

end MarkupActions
