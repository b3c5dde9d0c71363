import MarkupActions.Proofs.Covers

/-!
# The search for a closing tag

The search goes from one closing tag to the next, and from a covered one to where its cover ends.
Every cover ends behind the place that it covers, so the search comes to an end; and it finds the
first closing tag that nothing covers, since nothing that is jumped over is bare. That is said of a
body wherever it begins in a text. The bodies of blocks begin within a row, and for these it is the
search that blocks are made with, and the one that jumps nowhere.
-/

namespace MarkupActions

namespace Hunk

theorem finishEnd?_pos {s : Text} {n : Nat} (found : finishEnd? s = some n) : 0 < n := by
  cases s with
  | nil => cases found
  | cons c s =>
    rw [finishEnd?] at found
    split at found
    · rename_i k here
      obtain ⟨blanks, rest, _, _, _, rfl⟩ := (markerLength?_eq_some (by decide) (by decide)).mp here
      rw [← Option.some.inj found]
      omega
    · obtain ⟨k, _, rfl⟩ := Option.map_eq_some_iff.mp found
      omega

theorem lt_of_shadow {s : Text} {p stop : Nat} (inside : p < s.length)
    (covered : shadow s p = some stop) : p < stop := by
  simp only [shadow] at covered
  split at covered
  · cases covered
  · obtain rfl := Option.some.inj covered
    cases finish : finishEnd? (s.drop p) with
    | none => exact inside
    | some n =>
      have positive := finishEnd?_pos finish
      simp only [Option.map_some, Option.getD_some]
      omega

end Hunk

/-- What covers a place ends behind it, be it a code region or a hunk. -/
theorem lt_of_shadowFrom {lineStart : Bool} {mode : ScanMode} {body : Text} {p stop : Nat}
    (inside : p < body.length)
    (covered : shadowFrom lineStart mode body p = some stop) : p < stop := by
  unfold shadowFrom at covered
  split at covered
  · rename_i code
    exact Code.lt_of_shadow (code.trans covered)
  · exact Hunk.lt_of_shadow inside covered
  · cases covered

namespace ClosingTag

/-- Place and length of the first closing tag of a text. -/
def first? (name : Text) : Text → Option (Nat × Nat)
  | [] => none
  | c :: s =>
    match length? name (c :: s) with
    | some n => some (0, n)
    | none => (first? name s).map fun found => (found.1 + 1, found.2)

/-- Place and length of the first closing tag of a body that begins at the place `pos` or behind it.
-/
def next? (name body : Text) (pos : Nat) : Option (Nat × Nat) :=
  (first? name (body.drop pos)).map fun found => (pos + found.1, found.2)

variable {name s body : Text} {pos p n : Nat}

theorem first?_eq_some (found : first? name s = some (p, n)) :
    length? name (s.drop p) = some n ∧ p < s.length ∧ ∀ q, q < p → length? name
      (s.drop q) = none := by
  induction s generalizing p n with
  | nil => cases found
  | cons c s ih =>
    rw [first?] at found
    split at found
    · rename_i here
      obtain ⟨rfl, rfl⟩ := Prod.mk.inj (Option.some.inj found)
      exact ⟨here, by simp, by omega⟩
    · rename_i here
      obtain ⟨⟨q, m⟩, later, same⟩ := Option.map_eq_some_iff.mp found
      obtain ⟨rfl, rfl⟩ := Prod.mk.inj same
      obtain ⟨closes, inside, before⟩ := ih later
      refine ⟨closes, by simpa using inside, fun k less => ?_⟩
      cases k with
      | zero => exact here
      | succ k => exact before k (by omega)

theorem first?_eq_none (absent : first? name s = none) (q : Nat) :
    length? name (s.drop q) = none := by
  induction s generalizing q with
  | nil =>
    rw [List.drop_nil]
    rfl
  | cons c s ih =>
    rw [first?] at absent
    split at absent
    · cases absent
    · rename_i here
      cases q with
      | zero => exact here
      | succ q => exact ih (Option.map_eq_none_iff.mp absent) q

theorem next?_eq_some (found : next? name body pos = some (p, n)) :
    length? name (body.drop p) = some n ∧ p < body.length ∧ pos ≤ p ∧
      ∀ q, pos ≤ q → q < p → length? name (body.drop q) = none := by
  obtain ⟨⟨k, m⟩, first, same⟩ := Option.map_eq_some_iff.mp found
  obtain ⟨rfl, rfl⟩ := Prod.mk.inj same
  obtain ⟨closes, inside, before⟩ := first?_eq_some first
  rw [List.drop_drop] at closes
  rw [List.length_drop] at inside
  refine ⟨closes, by omega, Nat.le_add_right _ _, fun q later less => ?_⟩
  obtain ⟨j, rfl⟩ := Nat.exists_eq_add_of_le later
  rw [← List.drop_drop]
  exact before j (by simpa using less)

theorem next?_eq_none (absent : next? name body pos = none) {q : Nat} (later : pos ≤ q) :
    length? name (body.drop q) = none := by
  obtain ⟨j, rfl⟩ := Nat.exists_eq_add_of_le later
  rw [← List.drop_drop]
  exact first?_eq_none (Option.map_eq_none_iff.mp absent) j

theorem lt_length_of_length? (closes : length? name (body.drop p) = some n) : p < body.length := by
  by_contra past
  rw [List.drop_eq_nil_iff.mpr (Nat.le_of_not_lt past)] at closes
  cases closes

end ClosingTag

/-- Looks for a closing tag of a body from the place `pos` on. From one that is covered it goes on
where the cover ends. -/
def searchFrom? (lineStart : Bool) (mode : ScanMode) (name body : Text) (pos : Nat) :
    Option (Nat × Nat) :=
  match _found : ClosingTag.next? name body pos with
  | none => none
  | some (place, n) =>
    match _covered : shadowFrom lineStart mode body place with
    | none => some (place, n)
    | some resume => if resume < body.length then searchFrom? lineStart mode name body resume
        else none
termination_by body.length - pos
decreasing_by
  obtain ⟨_, inside, later, _⟩ := ClosingTag.next?_eq_some _found
  have ahead := lt_of_shadowFrom inside _covered
  omega

/-- Place and length of the closing tag that ends a body which begins behind `before`. -/
def search? (mode : ScanMode) (name before body : Text) : Option (Nat × Nat) :=
  searchFrom? (startsRow true before) mode name body 0

/-- Whether code that opens in a body covers the place `pos`, or in a content block an unfinished
hunk. -/
def Covered (lineStart : Bool) (mode : ScanMode) (body : Text) (pos : Nat) : Prop :=
  (Code.shadow lineStart body pos).isSome = true ∨ mode = .content ∧
    (Hunk.shadow body pos).isSome = true

/-- A closing tag of length `n` at the place `pos` of a body that nothing covers, and all in front
of it are covered. -/
structure FirstBare (lineStart : Bool) (mode : ScanMode) (name body : Text) (pos n : Nat) :
    Prop where
  closes : ClosingTag.length? name (body.drop pos) = some n
  bare : ¬ Covered lineStart mode body pos
  earlier : ∀ place < pos, ∀ m, ClosingTag.length? name (body.drop place) = some m →
    Covered lineStart mode body place

variable {lineStart : Bool} {mode : ScanMode} {name body : Text} {pos p n : Nat}

theorem isSome_shadowFrom : (shadowFrom lineStart mode body p).isSome = true ↔
    Covered lineStart mode body p := by
  unfold shadowFrom Covered
  cases Code.shadow lineStart body p with
  | some stop => simp
  | none => cases mode <;> simp

theorem shadowFrom_eq_none : shadowFrom lineStart mode body p = none ↔
    ¬ Covered lineStart mode body p := by
  rw [← isSome_shadowFrom, Option.not_isSome_iff_eq_none]

/-- Up to the place where the search goes on all closing tags are covered. -/
theorem coveredBetween_of_next? {resume : Nat}
    (found : ClosingTag.next? name body pos = some (p, n))
    (covered : shadowFrom lineStart mode body p = some resume) :
    CoveredBetween lineStart mode (ClosingTag.length? name) body pos resume := by
  obtain ⟨closes, _, _, before⟩ := ClosingTag.next?_eq_some found
  intro place later less m closes'
  by_cases early : place < p
  · rw [before place later early] at closes'
    cases closes'
  · exact coveredBetween_of_shadow (seesTags_length? name) closes covered place
      (Nat.le_of_not_lt early) less m closes'

theorem searchFrom?_of_none (absent : ClosingTag.next? name body pos = none) :
    searchFrom? lineStart mode name body pos = none := by
  rw [searchFrom?]
  split
  · rfl
  · rename_i found
    rw [absent] at found
    cases found

theorem searchFrom?_of_some (found : ClosingTag.next? name body pos = some (p, n)) :
    searchFrom? lineStart mode name body pos =
      match shadowFrom lineStart mode body p with
      | none => some (p, n)
      | some resume => if resume < body.length then searchFrom? lineStart mode name body resume
          else none := by
  rw [searchFrom?]
  split
  · rename_i absent
    rw [found] at absent
    cases absent
  · rename_i place m found'
    rw [found] at found'
    obtain ⟨rfl, rfl⟩ := Prod.mk.inj (Option.some.inj found')
    split <;> rename_i covered <;> simp only [covered]

/-- What the search finds is bare, and nothing that it has passed over is. -/
theorem searchFrom?_eq_some (found : searchFrom? lineStart mode name body pos = some (p, n)) :
    ClosingTag.length? name (body.drop p) = some n ∧ shadowFrom lineStart mode body p = none ∧
      CoveredBetween lineStart mode (ClosingTag.length? name) body pos p := by
  induction pos using searchFrom?.induct lineStart mode name body with
  | case1 pos absent =>
    rw [searchFrom?_of_none absent] at found
    cases found
  | case2 pos place m next bare =>
    simp only [searchFrom?_of_some next, bare, Option.some.injEq, Prod.mk.injEq] at found
    obtain ⟨rfl, rfl⟩ := found
    obtain ⟨closes, _, _, before⟩ := ClosingTag.next?_eq_some next
    refine ⟨closes, bare, fun q later less k closes' => ?_⟩
    rw [before q later less] at closes'
    cases closes'
  | case3 pos place m next resume covered inside ih =>
    simp only [searchFrom?_of_some next, covered, inside, if_true] at found
    obtain ⟨closes, bare, between⟩ := ih found
    refine ⟨closes, bare, fun q later less k closes' => ?_⟩
    by_cases early : q < resume
    · exact coveredBetween_of_next? next covered q later early k closes'
    · exact between q (Nat.le_of_not_lt early) less k closes'
  | case4 pos place m next resume covered outside =>
    simp only [searchFrom?_of_some next, covered, outside, if_false] at found
    cases found

/-- The search finds nothing only where all closing tags are covered. -/
theorem searchFrom?_eq_none (absent : searchFrom? lineStart mode name body pos = none) :
    CoveredBetween lineStart mode (ClosingTag.length? name) body pos body.length := by
  induction pos using searchFrom?.induct lineStart mode name body with
  | case1 pos none =>
    intro place later _ n closes
    rw [ClosingTag.next?_eq_none none later] at closes
    cases closes
  | case2 pos place m next bare =>
    simp only [searchFrom?_of_some next, bare] at absent
    cases absent
  | case3 pos place m next resume covered inside ih =>
    simp only [searchFrom?_of_some next, covered, inside, if_true] at absent
    intro q later less k closes
    by_cases early : q < resume
    · exact coveredBetween_of_next? next covered q later early k closes
    · exact ih absent q (Nat.le_of_not_lt early) less k closes
  | case4 pos place m next resume covered outside =>
    intro q later less
    exact coveredBetween_of_next? next covered q later (by omega)

/-- No body has two closing tags that are the first bare one. -/
theorem FirstBare.unique {q m : Nat} (first : FirstBare lineStart mode name body p n)
    (second : FirstBare lineStart mode name body q m) : p = q ∧ n = m := by
  rcases Nat.lt_trichotomy p q with before | rfl | after
  · exact False.elim (first.bare (second.earlier p before n first.closes))
  · exact ⟨rfl, Option.some.inj (first.closes.symm.trans second.closes)⟩
  · exact False.elim (second.bare (first.earlier q after m second.closes))

/-- A search that finds none but the first bare closing tag, and nothing only where all are covered,
finds it. -/
theorem eq_some_iff_firstBare {found : Option (Nat × Nat)}
    (sound : ∀ p n, found = some (p, n) → FirstBare lineStart mode name body p n)
    (complete : found = none →
      ∀ p n, ClosingTag.length? name (body.drop p) = some n → Covered lineStart mode body p) :
    found = some (p, n) ↔ FirstBare lineStart mode name body p n := by
  refine ⟨sound p n, fun first => ?_⟩
  cases found with
  | none => exact False.elim (first.bare (complete rfl p n first.closes))
  | some place =>
    obtain ⟨rfl, rfl⟩ := (sound place.1 place.2 rfl).unique first
    rfl

theorem searchFrom?_eq_some_iff :
    searchFrom? lineStart mode name body 0 = some (p, n) ↔
      FirstBare lineStart mode name body p n := by
  refine eq_some_iff_firstBare (fun p n found => ?_) fun absent p n closes => ?_
  · obtain ⟨closes, bare, between⟩ := searchFrom?_eq_some found
    refine ⟨closes, shadowFrom_eq_none.mp bare, fun place before m closes' => ?_⟩
    exact isSome_shadowFrom.mp (between place (Nat.zero_le _) before m closes')
  · have inside := ClosingTag.lt_length_of_length? closes
    exact isSome_shadowFrom.mp (searchFrom?_eq_none absent p (Nat.zero_le _) inside n closes)

theorem closing?_eq_some_iff :
    closing? mode (ClosingTag.length? name) body = some (p, n) ↔
      FirstBare false mode name body p n := by
  have sees := seesTags_length? name
  have split : ∀ p m, ClosingTag.length? name (body.drop p) = some m →
      body = body.take p ++ body.drop p ∧ (body.take p).length = p := by
    intro p m closes
    have inside := ClosingTag.lt_length_of_length? closes
    exact ⟨(List.take_append_drop p body).symm, by rw [List.length_take]; omega⟩
  refine eq_some_iff_firstBare (fun p n found => ?_) fun absent p n closes => ?_
  · obtain ⟨front, tail, whole, rfl, closes, _, bare⟩ := closing?_sound found
    refine ⟨by rwa [whole, List.drop_left], shadowFrom_eq_none.mp bare,
      fun place before m closes' => ?_⟩
    obtain ⟨cut, size⟩ := split place m closes'
    have covered := closing?_earlier sees found cut closes' (by rwa [size])
    rw [size] at covered
    exact isSome_shadowFrom.mp covered
  · obtain ⟨cut, size⟩ := split p n closes
    have covered := closing?_none sees absent cut closes
    rw [size] at covered
    exact isSome_shadowFrom.mp covered

theorem unshadowedFrom?_eq_some {rest : Text} (here : body.drop pos = rest)
    (found : unshadowedFrom? mode (ClosingTag.length? name) body pos rest = some (p, n)) :
    ClosingTag.length? name (body.drop p) = some n ∧ shadow mode body p = none ∧
      CoveredBetween false mode (ClosingTag.length? name) body pos p := by
  induction rest generalizing pos with
  | nil => cases found
  | cons c rest ih =>
    have next : body.drop (pos + 1) = rest := by
      rw [← List.drop_drop, here]
      rfl
    rw [unshadowedFrom?, ← here] at found
    split at found
    · rename_i m closes
      split at found
      · rename_i bare
        obtain ⟨rfl, rfl⟩ := Prod.mk.inj (Option.some.inj found)
        exact ⟨closes, Option.isNone_iff_eq_none.mp bare, coveredBetween_of_le (Nat.le_refl _)⟩
      · rename_i covered
        obtain ⟨closes', bare, between⟩ := ih next found
        refine ⟨closes', bare, .cons (fun _ _ => ?_) between⟩
        rw [shadowFrom_false, Option.isSome_iff_ne_none]
        exact fun none => covered (by rw [none]; rfl)
    · rename_i none
      obtain ⟨closes', bare, between⟩ := ih next found
      refine ⟨closes', bare, .cons (fun m closes => ?_) between⟩
      rw [none] at closes
      cases closes

theorem unshadowedFrom?_eq_none {rest : Text} (here : body.drop pos = rest)
    (absent : unshadowedFrom? mode (ClosingTag.length? name) body pos rest = none) :
    CoveredBetween false mode (ClosingTag.length? name) body pos body.length := by
  induction rest generalizing pos with
  | nil => exact coveredBetween_of_le (List.drop_eq_nil_iff.mp here)
  | cons c rest ih =>
    have next : body.drop (pos + 1) = rest := by
      rw [← List.drop_drop, here]
      rfl
    rw [unshadowedFrom?, ← here] at absent
    split at absent
    · split at absent
      · cases absent
      · rename_i covered
        refine .cons (fun _ _ => ?_) (ih next absent)
        rw [shadowFrom_false, Option.isSome_iff_ne_none]
        exact fun none => covered (by rw [none]; rfl)
    · rename_i none
      refine .cons (fun m closes => ?_) (ih next absent)
      rw [none] at closes
      cases closes

theorem firstUnshadowed?_eq_some_iff :
    firstUnshadowed? mode (ClosingTag.length? name) body = some (p, n) ↔
      FirstBare false mode name body p n := by
  refine eq_some_iff_firstBare (fun p n found => ?_) fun absent p n closes => ?_
  · obtain ⟨closes, bare, between⟩ := unshadowedFrom?_eq_some rfl found
    refine ⟨closes, shadowFrom_eq_none.mp bare, fun place before m closes' => ?_⟩
    exact isSome_shadowFrom.mp (between place (Nat.zero_le _) before m closes')
  · have inside := ClosingTag.lt_length_of_length? closes
    exact isSome_shadowFrom.mp (unshadowedFrom?_eq_none rfl absent p
      (Nat.zero_le _) inside n closes)

/-- Jumping over what covers a closing tag finds the one that is found without jumping. -/
theorem closing?_eq_firstUnshadowed? :
    closing? mode (ClosingTag.length? name) body = firstUnshadowed? mode
      (ClosingTag.length? name) body :=
  Option.ext fun _ => closing?_eq_some_iff.trans firstUnshadowed?_eq_some_iff.symm

/-- The search for a closing tag comes to an end in every body, wherever it begins, and finds the
first closing tag that nothing covers; it finds nothing just where all are covered. Behind the
bracket of a tag it is the search that says where a block ends, and looking at one closing tag after
the other finds the same. -/
theorem search?_firstBare (mode : ScanMode) (name before body : Text) :
    (∀ pos n, search? mode name before body = some (pos, n) ↔
      FirstBare (startsRow true before) mode name body pos n) ∧
    (search? mode name before body = none ↔
      ∀ pos n, ClosingTag.length? name (body.drop pos) = some n → Covered
        (startsRow true before) mode body pos) ∧
    (startsRow true before = false →
      closing? mode (ClosingTag.length? name) body = search? mode name before body ∧
        firstUnshadowed? mode (ClosingTag.length? name) body = search? mode name before body) := by
  refine ⟨fun pos n => searchFrom?_eq_some_iff, ⟨fun absent pos n closes => ?_, fun covered => ?_⟩,
    fun within => ?_⟩
  · have inside := ClosingTag.lt_length_of_length? closes
    exact isSome_shadowFrom.mp (searchFrom?_eq_none absent pos (Nat.zero_le _) inside n closes)
  · cases found : search? mode name before body with
    | none => rfl
    | some place =>
      have first : FirstBare (startsRow true before) mode name body place.1 place.2 :=
        searchFrom?_eq_some_iff.mp found
      exact False.elim (first.bare (covered place.1 place.2 first.closes))
  · have same : closing? mode (ClosingTag.length? name) body = search? mode name before body := by
      rw [search?, within]
      exact Option.ext fun _ => closing?_eq_some_iff.trans searchFrom?_eq_some_iff.symm
    exact ⟨same, closing?_eq_firstUnshadowed?.symm.trans same⟩

/-- The first closing tag stands in a span, and the second ends the body. -/
example : search? .structural "say".toList ['>'] "\x60</say>\x60</say>".toList = some (8, 6) := by
  decide +kernel

end MarkupActions
