import MarkupActions.Proofs.Closing
import MarkupActions.Proofs.Hunks

/-!
# Closing tags that are passed over

Behind a closing tag that is covered the search goes on where the cover ends. It misses nothing by
that: what covers the one covers all that stand between the two places. So a body ends at the first
closing tag that nothing covers, and goes on for ever if there is none.
-/

namespace MarkupActions

/-- What covers a place ends behind it. -/
theorem Code.lt_of_shadow {lineStart : Bool} {s : Text} {p stop : Nat}
    (covered : shadow lineStart s p = some stop) :
    p < stop := by
  fun_induction shadow lineStart s p generalizing stop with
  | case1 => cases covered
  | case2 => cases covered
  | case3 _ _ _ _ _ _ inside =>
    obtain rfl := Option.some.inj covered
    exact inside
  | case4 _ _ _ _ _ _ _ ih =>
    obtain ⟨stop, inner, rfl⟩ := Option.map_eq_some_iff.mp covered
    have := ih inner
    omega
  | case5 =>
    rename_i ih
    obtain ⟨stop, inner, rfl⟩ := Option.map_eq_some_iff.mp covered
    have := ih inner
    omega

/-- What covers one place covers all others up to where it ends. -/
theorem Code.shadow_covers {lineStart : Bool} {s : Text} {p q stop : Nat}
    (covered : shadow lineStart s p = some stop) (later : p ≤ q) (before : q < stop) :
    shadow lineStart s q = some stop := by
  fun_induction shadow lineStart s p generalizing q stop with
  | case1 => cases covered
  | case2 => cases covered
  | case3 lineStart pos c s n region inside =>
    obtain rfl := Option.some.inj covered
    exact shadow_of_region region (by omega) before (by simp)
  | case4 lineStart pos c s n region outside ih =>
    obtain ⟨stop, inner, rfl⟩ := Option.map_eq_some_iff.mp covered
    obtain ⟨q, rfl⟩ : ∃ r, q = r + 1 := ⟨q - 1, by omega⟩
    have past : ¬ q + 1 < n := by omega
    have ahead := lt_of_shadow inner
    have rest := @ih (q + 1 - n) stop inner (by omega) (by omega)
    rw [shadow, region]
    simp only [past, if_false, rest, Option.map_some]
  | case5 =>
    rename_i lineStart pos c s region n ih
    obtain ⟨stop, inner, rfl⟩ := Option.map_eq_some_iff.mp covered
    have ahead := lt_of_shadow inner
    obtain ⟨q, rfl⟩ : ∃ r, q = r + 1 := ⟨q - 1, by omega⟩
    have rest := @ih (q + 1 - n) stop inner (by omega) (by omega)
    rw [shadow, region]
    simp only [n] at rest ⊢
    rw [rest, Option.map_some]

/-- What covers the place `pos` of a body that begins at the start of a row, or does not. -/
def shadowFrom (lineStart : Bool) (mode : ScanMode) (body : Text) (pos : Nat) : Option Nat :=
  match Code.shadow lineStart body pos, mode with
  | some stop, _ => some stop
  | none, .content => Hunk.shadow body pos
  | none, .structural => none

/-- The body of a block begins behind a bracket, and so within a row. -/
theorem shadowFrom_false (mode : ScanMode) (body : Text) (pos : Nat) :
    shadowFrom false mode body pos = shadow mode body pos := rfl

variable {lineStart : Bool} {mode : ScanMode} {closes? : Text → Option Nat} {body : Text}
    {p q : Nat}

/-- Whether only what begins like a closing tag is taken for one. -/
def SeesTags (closes? : Text → Option Nat) : Prop :=
  ∀ s n, closes? s = some n → ∃ t, s = '<' :: '/' :: t

/-- Whether all closing tags are covered that stand in a body from the place `p` to the place `q`.
-/
def CoveredBetween (lineStart : Bool) (mode : ScanMode) (closes? : Text → Option Nat) (body : Text)
    (p q : Nat) : Prop :=
  ∀ place, p ≤ place → place < q → ∀ n, closes? (body.drop place) = some n →
    (shadowFrom lineStart mode body place).isSome = true

theorem coveredBetween_of_le (behind : q ≤ p) : CoveredBetween lineStart mode closes? body p q := by
  intro place later before
  omega

theorem CoveredBetween.cons
    (here : ∀ n, closes? (body.drop p) = some n → (shadowFrom lineStart mode body p).isSome = true)
    (rest : CoveredBetween lineStart mode closes? body (p + 1) q) :
    CoveredBetween lineStart mode closes? body p q := by
  intro place later before
  rcases Nat.eq_or_lt_of_le later with rfl | past
  · exact here
  · exact rest place past before

/-- What covers a closing tag covers all closing tags up to where it ends. -/
theorem coveredBetween_of_shadow (sees : SeesTags closes?) {n stop : Nat}
    (closes : closes? (body.drop p) = some n)
    (covered : shadowFrom lineStart mode body p = some stop) :
    CoveredBetween lineStart mode closes? body p stop := by
  intro place later before m closes'
  unfold shadowFrom at covered ⊢
  split at covered
  · rename_i code
    rw [Option.some.inj covered] at code
    rw [Code.shadow_covers code later before]
    rfl
  · cases code : Code.shadow lineStart body place with
    | some => rfl
    | none =>
      obtain ⟨t, tag⟩ := sees _ n closes
      obtain ⟨t', tag'⟩ := sees _ m closes'
      rcases Nat.eq_or_lt_of_le later with rfl | past
      · rw [covered]
        rfl
      · obtain ⟨k, rfl⟩ : ∃ k, place = p + 1 + k := ⟨place - (p + 1), by omega⟩
        have after : ('/' :: t).drop k = '<' :: '/' :: t' := by
          rw [← tag', ← List.drop_drop, ← List.drop_drop, tag]
          rfl
        have middle := List.take_append_drop k ('/' :: t)
        rw [after] at middle
        have size : (('/' :: t).take k).length = k := by
          have length := congrArg List.length after
          simp only [List.length_drop, List.length_cons] at length
          simp only [List.length_take, List.length_cons]
          omega
        have size' : (body.take p).length = p := by
          have length := congrArg List.length tag
          simp only [List.length_drop, List.length_cons] at length
          simp only [List.length_take]
          omega
        have whole := List.take_append_drop p body
        rw [tag, ← middle] at whole
        have open' := @Hunk.shadow_covers (body.take p) (('/' :: t).take k) ('/' :: t') stop
        rw [whole, size, size'] at open'
        exact open' covered before
  · cases covered

/-- All closing tags in front of what is found are covered, and all there are if nothing is found.
-/
theorem closingFrom?_covers (sees : SeesTags closes?) {rest : Text} {skip : Nat}
    (here : body.drop p = rest)
    (skipped : CoveredBetween false mode closes? body p (p + skip)) :
    CoveredBetween false mode closes? body p
      (((closingFrom? mode closes? body skip p rest).map (·.1)).getD body.length) := by
  induction rest generalizing p skip with
  | nil => exact coveredBetween_of_le (List.drop_eq_nil_iff.mp here)
  | cons c rest ih =>
    have next : body.drop (p + 1) = rest := by
      rw [← List.drop_drop, here]
      rfl
    cases skip with
    | succ skip =>
      refine .cons (skipped p (Nat.le_refl p) (by omega)) ?_
      exact ih next fun place later before => skipped place (by omega) (by omega)
    | zero =>
      rw [closingFrom?]
      split
      · rename_i none
        refine .cons (fun n closes => ?_) (ih next (coveredBetween_of_le (Nat.le_refl _)))
        rw [here, none] at closes
        cases closes
      · rename_i n closes
        rw [← here] at closes
        split
        · exact coveredBetween_of_le (Nat.le_refl p)
        · rename_i resume covered
          refine .cons (fun _ _ => by rw [shadowFrom_false, covered]; rfl)
            (ih next fun place later before => ?_)
          exact coveredBetween_of_shadow sees closes covered place (by omega) (by omega)

/-- All closing tags in front of the one that is found are covered. -/
theorem closing?_earlier (sees : SeesTags closes?) {pos n m : Nat}
    (found : closing? mode closes? body = some (pos, n))
    {front tail : Text} (whole : body = front ++ tail) (closes : closes? tail = some m)
    (before : front.length < pos) :
    (shadow mode body front.length).isSome = true := by
  have covers := @closingFrom?_covers mode closes? body 0 sees body 0 rfl
    (coveredBetween_of_le (Nat.le_refl 0))
  rw [← closing?, found] at covers
  subst whole
  exact covers front.length (Nat.zero_le _) before m (by rw [List.drop_left, closes])

/-- If nothing is found, all closing tags are covered. -/
theorem closing?_none (sees : SeesTags closes?) {m : Nat}
    (found : closing? mode closes? body = none)
    {front tail : Text} (whole : body = front ++ tail) (closes : closes? tail = some m) :
    (shadow mode body front.length).isSome = true := by
  have covers := @closingFrom?_covers mode closes? body 0 sees body 0 rfl
    (coveredBetween_of_le (Nat.le_refl 0))
  rw [← closing?, found] at covers
  obtain ⟨t, rfl⟩ := sees tail m closes
  subst whole
  exact covers front.length (Nat.zero_le _) (by simp) m (by rw [List.drop_left, closes])

/-- A closing tag that nothing covers is found if all in front of it are covered. -/
theorem closing?_of_earlier (sees : SeesTags closes?) {front tail : Text} {n : Nat}
    (whole : body = front ++ tail)
    (closes : closes? tail = some n) (bare : shadow mode body front.length = none)
    (earlier : ∀ a b m, body = a ++ b → closes? b = some m → a.length < front.length →
      (shadow mode body a.length).isSome = true) :
    closing? mode closes? body = some (front.length, n) := by
  cases found : closing? mode closes? body with
  | none =>
    have covered := closing?_none sees found whole closes
    rw [bare] at covered
    cases covered
  | some place =>
    obtain ⟨pos, m⟩ := place
    obtain ⟨a, b, whole', rfl, closes', _, bare'⟩ := closing?_sound found
    rcases Nat.lt_trichotomy a.length front.length with before | same | after
    · have covered := earlier a b m whole' closes' before
      rw [bare'] at covered
      cases covered
    · obtain ⟨rfl, rfl⟩ := List.append_inj (whole.symm.trans whole') same.symm
      rw [closes] at closes'
      rw [Option.some.inj closes']
    · have covered := closing?_earlier sees found whole closes after
      rw [bare] at covered
      cases covered

theorem seesTags_length? (name : Text) : SeesTags (ClosingTag.length? name) := by
  intro s n found
  obtain ⟨front, blanks, rest, rfl, lower, _⟩ := ClosingTag.length?_eq_some.mp found
  obtain ⟨c, front, rfl, head, inner⟩ := List.map_eq_cons_iff.mp lower
  obtain ⟨d, front, rfl, head', _⟩ := List.map_eq_cons_iff.mp inner
  rw [Text.eq_of_toLower_eq (by decide) head, Text.eq_of_toLower_eq (by decide) head']
  exact ⟨front ++ (blanks ++ '>' :: rest), by simp⟩

theorem ClosingTag.length?_of_ne {name : Text} {c : Char} (other : c ≠ '<') (s : Text) :
    length? name (c :: s) = none := by
  cases found : length? name (c :: s) with
  | none => rfl
  | some n =>
    obtain ⟨t, whole⟩ := seesTags_length? name _ n found
    exact False.elim (other (List.cons.inj whole).1)

/-- A closing tag that was taken out of a text is one in front of any text. -/
theorem length?_of_take {name closing x : Text} {n : Nat} (cut : closing = (closing ++ x).take n)
    (found : ClosingTag.length? name (closing ++ x) = some n) :
    (∃ w, closing = '<' :: (w ++ ['>'])) ∧ n = closing.length ∧
      ∀ y, ClosingTag.length? name (closing ++ y) = some closing.length := by
  obtain ⟨front, blanks, shape, lower, blank⟩ := ClosingTag.take_of_length? found
  rw [← cut] at shape
  obtain ⟨c, tail, rfl, head, _⟩ := List.map_eq_cons_iff.mp lower
  obtain rfl := Text.eq_of_toLower_eq (by decide) head
  have closes : ∀ y, ClosingTag.length? name (closing ++ y) = some closing.length := by
    intro y
    refine ClosingTag.length?_eq_some.mpr
      ⟨'<' :: tail, blanks, y, by rw [shape]; simp, lower, blank, ?_⟩
    rw [shape]
    simp
    omega
  refine ⟨⟨tail ++ blanks, by rw [shape]; simp⟩, ?_, closes⟩
  rw [closes x, Option.some.injEq] at found
  exact found.symm

/-- A block ends in a bracket. -/
theorem text_of_blockAt? {m : Matcher} {block : Block} {x : Text}
    (found : m.blockAt? (block.text ++ x) = some block) :
    ∃ u, block.text = u ++ ['>'] := by
  obtain ⟨tag, _, matched⟩ := Option.bind_eq_some_iff.mp found
  obtain ⟨mode, _, shape⟩ := Option.map_eq_some_iff.mp matched
  obtain ⟨tag', extent⟩ := block
  obtain ⟨rfl, ends⟩ := Block.mk.inj shape
  cases extent with
  | closesItself =>
    exact ⟨'<' :: (tag.name ++ tag.attributes), by simp [Block.text, OpeningTag.text]⟩
  | unclosed => exact ⟨'<' :: (tag.name ++ tag.attributes), by simp [Block.text, OpeningTag.text]⟩
  | closed body closing =>
    simp only [Block.text, List.append_assoc, List.drop_left] at ends ⊢
    obtain ⟨_, n, back, whole, cut, length, _⟩ := extentOf_eq_closed ends
    obtain rfl := List.append_cancel_left whole
    obtain ⟨⟨w, rfl⟩, _⟩ := length?_of_take cut length
    exact ⟨tag.text ++ (body ++ '<' :: w), by simp⟩

end MarkupActions
