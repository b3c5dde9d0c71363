import MarkupActions.Proofs.Shadows

/-!
# Stripping a text

How inert regions are taken out, step by step: a region is passed over, a guarded block is copied,
and text in which nothing is marked up stays.
-/

namespace MarkupActions

open Code (tick)

namespace Inert

variable {guarded : Matcher} {lineStart : Bool}

theorem literalLength?_pos {s : Text} {n : Nat} (found : literalLength? s = some n) : 0 < n := by
  unfold literalLength? at found
  split at found
  · rename_i c rest after
    obtain ⟨front, rfl, _⟩ := Text.afterLower?_eq_some.mp after
    split at found
    · cases ends : ClosingTag.firstEnd? literalName (front ++ c :: rest) with
      | none =>
        rw [ends, Option.getD_none, Option.some.injEq, List.length_append, List.length_cons]
          at found
        omega
      | some k =>
        obtain ⟨_, _, m, _, closes, rfl⟩ := ClosingTag.firstEnd?_split ends
        obtain ⟨_, _, _, _, _, _, rfl⟩ := ClosingTag.length?_eq_some.mp closes
        rw [ends, Option.getD_some, Option.some.injEq] at found
        omega
    · cases found
  · cases found

theorem regionLength?_pos {lineStart : Bool} {s : Text} {n : Nat}
    (found : regionLength? lineStart s = some n) : 0 < n := by
  unfold regionLength? at found
  split at found
  · rename_i code
    exact Code.regionLength?_pos (code.trans found)
  · exact literalLength?_pos found

/-- The blocks that are copied when a text is stripped, each with the text behind it. -/
def copied (guarded : Matcher) (lineStart : Bool) : Text → List (Block × Text)
  | [] => []
  | c :: s =>
    match regionLength? lineStart (c :: s) with
    | some n => copied guarded false (s.drop (n - 1))
    | none =>
      match guarded.blockAt? (c :: s) with
      | some block =>
        let rest := s.drop (block.text.length - 1)
        (block, rest) :: copied guarded false rest
      | none => copied guarded (c == '\n') (s.drop (Code.plainLength (c :: s) - 1))
termination_by s => s.length
decreasing_by all_goals (simp only [List.length_drop, List.length_cons]; omega)

/-- A region is left out, and stripping goes on behind it. -/
theorem strip_drop {s : Text} {n : Nat} (found : regionLength? lineStart s = some n) :
    strip guarded lineStart s = strip guarded false (s.drop n) := by
  cases s with
  | nil => rw [List.drop_nil, strip, strip]
  | cons c s =>
    obtain ⟨k, rfl⟩ := Nat.exists_eq_add_one_of_ne_zero (Nat.ne_of_gt (regionLength?_pos found))
    rw [strip, found]
    rfl

theorem copied_drop {s : Text} {n : Nat} (found : regionLength? lineStart s = some n) :
    copied guarded lineStart s = copied guarded false (s.drop n) := by
  cases s with
  | nil => rw [List.drop_nil, copied, copied]
  | cons c s =>
    obtain ⟨k, rfl⟩ := Nat.exists_eq_add_one_of_ne_zero (Nat.ne_of_gt (regionLength?_pos found))
    rw [copied, found]
    rfl

theorem strip_region {region s : Text}
    (found : regionLength? lineStart (region ++ s) = some region.length)
    (more : region ≠ []) : strip guarded lineStart (region ++ s) = strip guarded false s := by
  obtain ⟨c, region, rfl⟩ := List.exists_cons_of_ne_nil more
  rw [List.cons_append] at found ⊢
  rw [strip, found]
  simp

theorem strip_block {block : Block} {s : Text}
    (plain : regionLength? lineStart (block.text ++ s) = none)
    (found : guarded.blockAt? (block.text ++ s) = some block) :
    strip guarded lineStart (block.text ++ s) = block.text ++ strip guarded false s := by
  have pos := block.text_length_pos
  obtain ⟨c, front, whole⟩ := List.exists_cons_of_length_pos pos
  rw [whole, List.cons_append] at plain found
  rw [whole, List.cons_append, strip, plain, found]
  simp [whole]

theorem copied_block {block : Block} {s : Text}
    (plain : regionLength? lineStart (block.text ++ s) = none)
    (found : guarded.blockAt? (block.text ++ s) = some block) :
    copied guarded lineStart (block.text ++ s) = (block, s) :: copied guarded false s := by
  obtain ⟨c, front, whole⟩ := List.exists_cons_of_length_pos block.text_length_pos
  rw [whole, List.cons_append] at plain found
  rw [whole, List.cons_append, copied, plain, found]
  simp [whole]

theorem strip_cons {c : Char} {s : Text} (plain : regionLength? lineStart (c :: s) = none)
    (none : guarded.blockAt? (c :: s) = none) (other : c ≠ tick) :
    strip guarded lineStart (c :: s) = c :: strip guarded (c == '\n') s := by
  rw [strip, plain, none]
  simp [Code.plainLength, other]

theorem copied_cons {c : Char} {s : Text} (plain : regionLength? lineStart (c :: s) = none)
    (none : guarded.blockAt? (c :: s) = none) (other : c ≠ tick) :
    copied guarded lineStart (c :: s) = copied guarded (c == '\n') s := by
  rw [copied, plain, none]
  simp [Code.plainLength, other]

theorem blockAt?_of_ne {c : Char} (other : c ≠ '<') (s : Text) :
    guarded.blockAt? (c :: s) = none := by
  simp [Matcher.blockAt?, OpeningTag.read?_of_ne other]

/-- Where nothing is marked up, no region opens at the first character. -/
theorem region_of_clear {c : Char} {v s : Text} (clear : Clear (c :: v) s) :
    regionLength? lineStart (c :: (v ++ s)) = none ∧ c ≠ '<' ∧ c ≠ tick ∧ Clear v s := by
  obtain ⟨tags, ticks, unfenced⟩ := clear
  simp only [List.mem_cons, not_or] at tags ticks
  have fence : Code.fenceLength? (c :: (v ++ s)) = none := unfenced [] (c :: v) rfl (by simp)
  refine ⟨?_, Ne.symm tags.1, Ne.symm ticks.1, tags.2, ticks.2,
    fun a b whole => unfenced (c :: a) b (by rw [whole]; rfl)⟩
  rw [regionLength?, Code.regionLength?_of_unfenced fence,
    Code.spanLength?_of_ne (Ne.symm ticks.1)]
  exact literalLength?_of_ne (Ne.symm tags.1) _

/-- Text in which nothing is marked up is left as it is. -/
theorem strip_clear {v s : Text} (clear : Clear v s) :
    strip guarded lineStart (v ++ s) = v ++ strip guarded (startsRow lineStart v) s := by
  induction v generalizing lineStart with
  | nil => rfl
  | cons c v ih =>
    obtain ⟨region, tag, mark, later⟩ := region_of_clear clear
    rw [List.cons_append, strip_cons region (blockAt?_of_ne tag _) mark, ih later, startsRow_cons]
    rfl

theorem copied_clear {v s : Text} (clear : Clear v s) :
    copied guarded lineStart (v ++ s) = copied guarded (startsRow lineStart v) s := by
  induction v generalizing lineStart with
  | nil => rfl
  | cons c v ih =>
    obtain ⟨region, tag, mark, later⟩ := region_of_clear clear
    rw [List.cons_append, copied_cons region (blockAt?_of_ne tag _) mark, ih later, startsRow_cons]

theorem strip_prose {prose s : Text} (plain : Prose prose)
    (meets : prose.getLast? = some '\n' ∨ Code.fenceLength? s = none) :
    strip guarded lineStart (prose ++ s) = prose ++ strip guarded (startsRow lineStart prose) s :=
  strip_clear (plain.clear meets)

/-- Where no code is marked up and no literal block opens, nothing is taken out. -/
theorem strip_eq_self {s : Text} (ticks : tick ∉ s) (tildes : '~' ∉ s)
    (literals : Text.contains ('<' :: literalName) (Text.lower s) = false) :
    strip guarded lineStart s = s := by
  have rest : ∀ back front lineStart, s = front ++ back → strip guarded lineStart back = back := by
    intro back
    induction size : back.length using Nat.strongRecOn generalizing back with
    | ind size ih =>
      subst size
      rintro front lineStart rfl
      cases back with
      | nil => rw [strip]
      | cons c back =>
        have calm : Code.Calm (c :: back) := by
          have empty : Code.Calm [] := by
            intro mark _
            simp [Code.runLength]
          simpa using Code.calm_append (v := c :: back)
            ⟨fun inside => ticks (List.mem_append_right _ inside), fun inside =>
            tildes (List.mem_append_right _ inside)⟩ empty
        have other : c ≠ tick := by
          rintro rfl
          exact ticks (by simp)
        have plain : regionLength? lineStart (c :: back) = none := by
          rw [regionLength?_of_not_code calm (by simpa using other), literalLength?,
            Text.afterLower?_of_not_contains literals]
        cases found : guarded.blockAt? (c :: back) with
        | none =>
          rw [strip_cons plain found other, ih back.length (by simp) back rfl (front ++ [c]) _
            (by simp)]
        | some block =>
          obtain ⟨after, whole⟩ := Matcher.blockAt?_split found
          have less : after.length < (c :: back).length := by
            rw [whole, List.length_append]
            have := block.text_length_pos
            omega
          rw [whole] at plain found ⊢
          rw [strip_block plain found, ih after.length less after rfl (front ++ block.text) _
            (by rw [whole]; simp)]
  exact rest s [] lineStart rfl

end Inert

end MarkupActions
