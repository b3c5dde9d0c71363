import MarkupActions.Proofs.Regions
import MarkupActions.Proofs.Standing

/-!
# Behind the name of an opening tag

What follows the name of an opening tag, up to its bracket, where no other tag begins in it, and
perhaps no code region. It stays such text if the end of a tag is put in.
-/

namespace MarkupActions

open Code (tick)
open OpeningTag (settles)

/-- What stands behind the name of an opening tag in which no other tag begins. -/
structure Trail (rest : Text) : Prop where
  tags : '<' ∉ rest
  last : rest.getLast? = some '>'
  settled : settles none rest = true
  stop : rest.head?.any Text.isNameChar = false

/-- Text that cannot open a code region. -/
structure Uncoded (rest : Text) : Prop where
  ticks : tick ∉ rest
  few : ¬ ['~', '~', '~'] <:+: rest

section

variable {rest rest' : Text}

theorem Trail.exists_cons (trail : Trail rest) :
    ∃ d tail, rest = d :: tail ∧ Text.isNameChar d = false := by
  cases rest with
  | nil => cases trail.last
  | cons d tail => exact ⟨d, tail, rfl, by simpa using trail.stop⟩

/-- Whatever comes after the tag, no region opens in it. -/
theorem Trail.clear (trail : Trail rest) (uncoded : Uncoded rest) (s : Text) : Clear rest s where
  tags := trail.tags
  ticks := uncoded.ticks
  unfenced a b whole more := by
    have last := trail.last
    rw [whole, List.getLast?_append_of_ne_nil _ more] at last
    have back : b <:+ rest := ⟨a, whole.symm⟩
    exact Code.fenceLength?_of_calm (Code.calm_of_few
      (fun inside => uncoded.ticks (back.subset inside))
      (fun few => uncoded.few (few.trans back.isInfix)) (List.mem_of_getLast? last) (by decide))

theorem Trail.step (step : EditStep Closes rest rest') (trail : Trail rest) : Trail rest' := by
  have run : Rewrites Closes rest rest' := Relation.ReflTransGen.single step
  have tags : '<' ∉ rest' := fun inside =>
    trail.tags (run.mem_of_mem (endsTags_closes.neverNew (by decide) (by decide)) inside)
  have settled := OpeningTag.settles_rewrites run trail.settled
  obtain ⟨a, b, made⟩ := step
  rename_i old new
  have ends := made.new_eq
  refine ⟨tags, ?_, settled, ?_⟩
  · have last := trail.last
    cases b with
    | nil =>
      rcases ends with rfl | rfl
      · simp
      · simp
    | cons c b => simpa [List.getLast?_append] using last
  · have stop := trail.stop
    cases a with
    | nil =>
      rcases ends with rfl | rfl
      · simp only [List.nil_append, List.cons_append, List.head?_cons, Option.any_some]
        decide
      · simp only [List.nil_append, List.cons_append, List.head?_cons, Option.any_some]
        decide
    | cons c a => exact stop

theorem Trail.rewrites (run : Rewrites Closes rest rest') (trail : Trail rest) : Trail rest' :=
  run.preserves (fun _ _ step => Trail.step step) trail

theorem Uncoded.step (step : EditStep Closes rest rest') (uncoded : Uncoded rest) :
    Uncoded rest' := by
  have run : Rewrites Closes rest rest' := Relation.ReflTransGen.single step
  have ticks : tick ∉ rest' := fun inside =>
    uncoded.ticks (run.mem_of_mem (endsTags_closes.neverNew (by decide) (by decide)) inside)
  obtain ⟨a, b, made⟩ := step
  rename_i old new
  refine ⟨ticks, fun few => ?_⟩
  have sides : ['~', '~', '~'] <:+: a ∨ ['~', '~', '~'] <:+: b := by
    rcases made.new_eq with rfl | rfl
    · exact Text.infix_append_cons (by decide) few
    · refine (Text.infix_append_cons (by decide) few).imp_right fun later => ?_
      exact (Text.infix_append_cons (a := []) (by decide) later).resolve_left (by decide)
  rcases sides with left | right
  · exact uncoded.few (left.trans (List.prefix_append _ _).isInfix)
  · exact uncoded.few (right.trans ((List.suffix_append old b).trans
      (List.suffix_append _ _)).isInfix)

theorem Uncoded.rewrites (run : Rewrites Closes rest rest') (uncoded : Uncoded rest) :
    Uncoded rest' :=
  run.preserves (fun _ _ step => Uncoded.step step) uncoded

theorem Uncoded.bracket (uncoded : Uncoded rest) : Uncoded (rest ++ ['>']) where
  ticks := by simpa [tick] using uncoded.ticks
  few inside := uncoded.few ((Text.infix_append_cons (b := []) (by decide) inside).resolve_right
    (by decide))

end

namespace OpeningTag

/-- Attributes that are read up to a bracket end with it. -/
theorem settles_of_attributes? {quote : Option Char} {s v : Text}
    (read : attributes? quote s = some v) :
    settles quote (v ++ ['>']) = true := by
  induction s generalizing quote v with
  | nil => cases quote <;> simp [attributes?] at read
  | cons c s ih =>
    cases quote with
    | some q =>
      obtain ⟨tail, inner, rfl⟩ := Option.map_eq_some_iff.mp read
      simpa [settles] using ih inner
    | none =>
      by_cases close : c = '>'
      · obtain rfl : [] = v := by simpa [attributes?, close] using read
        rfl
      · by_cases opens : c = '<'
        · simp [attributes?, opens] at read
        · simp only [attributes?, close, opens, if_false, Option.map_eq_some_iff] at read
          obtain ⟨tail, inner, rfl⟩ := read
          simp [settles, ih inner]

/-- The name of a tag that is read begins with a letter. -/
theorem name_of_read? {s : Text} {tag : OpeningTag} (read : read? s = some tag) :
    ∃ c name, tag.name = c :: name ∧ c.isAlpha = true ∧
      ∀ d ∈ tag.name, Text.isNameChar d = true := by
  obtain ⟨_, _, ⟨c, name, shape, letter, letters⟩, _⟩ := inv_read? read
  refine ⟨c, name, shape, letter, fun d inside => ?_⟩
  rw [shape] at inside
  rcases List.mem_cons.mp inside with rfl | later
  · exact Text.isNameChar_of_startsName (Text.startsName_of_isAlpha letter)
  · exact letters d later

/-- A tag that is read for itself: its attributes are read back, and its name ends where they begin.
-/
theorem read?_self {tag : OpeningTag} (read : read? tag.text = some tag) :
    attributes? none (tag.attributes ++ ['>']) = some tag.attributes ∧
      (tag.attributes ++ ['>']).head?.any Text.isNameChar = false :=
  inv_read?_text (by rwa [List.append_nil])

/-- The attributes of a tag with its bracket, if no other tag begins in them. -/
theorem trail {tag : OpeningTag} (read : read? tag.text = some tag) (tags : '<' ∉ tag.attributes) :
    Trail (tag.attributes ++ ['>']) := by
  obtain ⟨back, stop⟩ := read?_self read
  exact ⟨by simpa using tags, by simp, settles_of_attributes? back, stop⟩

end OpeningTag

end MarkupActions
