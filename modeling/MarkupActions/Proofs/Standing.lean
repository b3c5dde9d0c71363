import MarkupActions.Proofs.Patching
import MarkupActions.Proofs.Regions

/-!
# What edits leave standing

Ending tags and respelling their names leaves the properties alone that keep a content inert: no
mark of a code region comes or goes, no row comes to close a fence, and a name that was absent stays
so.
-/

namespace MarkupActions

open Code (tick)

variable {edit : Text → Text → Prop}

/-- The edits put in the end of a tag and nothing else. -/
def EndsTags (edit : Text → Text → Prop) : Prop :=
  ∀ old new, edit old new → new = ['>'] ∨ new = ['/', '>']

theorem endsTags_closes : EndsTags Closes := fun _ _ made => made.new_eq

theorem endsTags_mends : EndsTags Mends := fun _ _ made => made.new_eq

theorem EndsTags.neverNew (ends : EndsTags edit) {c : Char} (bracket : c ≠ '>') (slash : c ≠ '/') :
    NeverNew edit c := by
  intro old new made inside
  rcases ends old new made with rfl | rfl
  · simp [bracket] at inside
  · simp [bracket, slash] at inside

theorem EditStep.front (ends : EndsTags edit) {front s t rest : Text} (bracket : '>' ∉ front)
    (slash : front.getLast? ≠ some '/') (step : EditStep edit s t) (whole : t = front ++ rest) :
    ∃ rest', s = front ++ rest' ∧ Rewrites edit rest' rest := by
  obtain ⟨a, b, made⟩ := step
  rename_i old new
  rcases List.append_eq_append_iff.mp whole with ⟨k, rfl, tail⟩ | ⟨k, rfl, rfl⟩
  · cases k with
    | nil =>
      simp only [List.append_nil, List.nil_append] at *
      exact ⟨old ++ b, rfl, tail ▸ (Rewrites.single made).append_right b⟩
    | cons c k =>
      rcases ends old new made with rfl | rfl
      · obtain ⟨rfl, _⟩ := List.cons.inj tail
        exact False.elim (bracket (by simp))
      · obtain ⟨rfl, later⟩ := List.cons.inj tail
        cases k with
        | nil => exact False.elim (slash (by simp))
        | cons d k =>
          obtain ⟨rfl, _⟩ := List.cons.inj later
          exact False.elim (bracket (by simp))
  · exact ⟨k ++ (old ++ b), by simp, ((Rewrites.single made).append_right b).append_left k⟩

/-- What stands at the head of an edited text, and has no end of a tag in it, stood there before. -/
theorem Rewrites.front (ends : EndsTags edit) (front : Text) {s rest : Text} (bracket : '>' ∉ front)
    (slash : front.getLast? ≠ some '/') (run : Rewrites edit s (front ++ rest)) :
    ∃ rest', s = front ++ rest' ∧ Rewrites edit rest' rest := by
  generalize whole : front ++ rest = t at run
  induction run generalizing rest with
  | refl => exact ⟨rest, whole.symm, .refl rest⟩
  | tail _ last ih =>
    obtain ⟨middle, whole', later⟩ := last.front ends bracket slash whole.symm
    obtain ⟨first, rfl, earlier⟩ := ih whole'.symm
    exact ⟨first, rfl, earlier.trans later⟩

/-- What stands after an angle bracket in an edited text, and is this name in some letter case,
stood there before. -/
def Stands (edit : Text → Text → Prop) (name : Text) : Prop :=
  ∀ s a front rest, Text.lower front = name → Rewrites edit s (a ++ '<' :: (front ++ rest)) →
    ∃ a' rest', s = a' ++ '<' :: (front ++ rest') ∧ Rewrites edit rest' rest

theorem EndsTags.stands (ends : EndsTags edit) {name : Text} (bracket : '>' ∉ name)
    (slash : name.getLast? ≠ some '/') :
    Stands edit name := by
  rintro s a front rest rfl run
  obtain ⟨a', v, rfl, _, right⟩ := run.split_of_new (ends.neverNew (by decide) (by decide))
  have noBracket : '>' ∉ front := fun inside =>
    bracket (List.mem_map_of_mem (f := Char.toLower) inside)
  have noSlash : front.getLast? ≠ some '/' := by
    intro last
    refine slash ?_
    rw [Text.lower, List.getLast?_map, last]
    rfl
  obtain ⟨rest', rfl, later⟩ := right.front ends front noBracket noSlash
  exact ⟨a', rest', rfl, later⟩

/-- A name after an angle bracket that is not in a text is not brought into it. -/
theorem EndsTags.stands_closing (ends : EndsTags edit) {name : Text}
    (fits : Repair.fits name = true) :
    Stands edit ('/' :: name) := by
  have plain := Repair.isPlain_of_fits fits
  have none : ∀ c, Text.isPlainLetter c = false → c ∉ name := fun c other inside => by
    rw [plain c inside] at other
    cases other
  refine ends.stands (by simp [none '>' (by decide)]) ?_
  cases name with
  | nil => cases fits
  | cons d name =>
    rw [List.getLast?_cons_cons]
    exact fun last => none '/' (by decide) (List.mem_of_getLast? last)

theorem Stands.not_contains {name s t : Text} (stands : Stands edit name) (run : Rewrites edit s t)
    (absent : Text.contains ('<' :: name) (Text.lower s) = false) :
    Text.contains ('<' :: name) (Text.lower t) = false := by
  cases found : Text.contains ('<' :: name) (Text.lower t) with
  | false => rfl
  | true =>
    obtain ⟨a, front, rest, rfl, lower⟩ := Text.contains_lower_iff.mp found
    obtain ⟨a', rest', rfl, _⟩ := stands _ _ _ _ lower run
    rw [Text.contains_lower_iff.mpr ⟨a', front, rest', rfl, lower⟩] at absent
    cases absent

namespace OpeningTag

theorem settles_blanks {quote : Option Char} {blanks b : Text}
    (blank : ∀ c ∈ blanks, Text.isBlank c = true)
    (marked : ∀ q, quote = some q → Text.isBlank q = false) :
    settles quote (blanks ++ b) = settles quote b := by
  induction blanks with
  | nil => rfl
  | cons c blanks ih =>
    have rest := ih fun d inside => blank d (List.mem_cons_of_mem _ inside)
    have dark := blank c List.mem_cons_self
    cases quote with
    | none => rw [List.cons_append, settles_cons (isBlank_passedOver c dark), rest]
    | some q =>
      have other : c ≠ q := by
        rintro rfl
        rw [marked c rfl] at dark
        cases dark
      simp only [List.cons_append, settles, other, if_false, rest]

/-- Ending a tag early only helps a scan to come to its end. -/
theorem settles_step {quote : Option Char} {s t : Text} (step : EditStep Closes s t)
    (marked : ∀ q, quote = some q → q = '"' ∨ q = '\'') (within : settles quote s = true) :
    settles quote t = true := by
  obtain ⟨a, b, made⟩ := step
  rename_i old new
  induction a generalizing quote with
  | nil =>
    have blank : ∀ c ∈ old, Text.isBlank c = true := by
      cases made with
      | bracket blank => exact blank
      | slash blank => exact blank
    have dark : ∀ q, quote = some q → Text.isBlank q = false := by
      intro q some'
      rcases marked q some' with rfl | rfl <;> decide
    rw [List.nil_append, settles_blanks blank dark] at within
    cases quote with
    | none => rcases made.new_eq with rfl | rfl <;> rfl
    | some q =>
      have bracket : '>' ≠ q := by rcases marked q rfl with rfl | rfl <;> decide
      have slash : '/' ≠ q := by rcases marked q rfl with rfl | rfl <;> decide
      rcases made.new_eq with rfl | rfl
      · simpa [settles, bracket] using within
      · simpa [settles, bracket, slash] using within
  | cons c a ih =>
    cases quote with
    | some q =>
      simp only [List.cons_append, settles] at within ⊢
      refine ih ?_ within
      intro r some'
      split at some'
      · cases some'
      · exact marked r some'
    | none =>
      simp only [List.cons_append, settles, Bool.or_eq_true] at within ⊢
      refine within.imp id fun inner => ih ?_ inner
      intro r some'
      split at some'
      · rename_i quote
        rw [← Option.some.inj some']
        exact quote
      · cases some'

theorem settles_rewrites {s t : Text} (run : Rewrites Closes s t) (within : settles none s = true) :
    settles none t = true :=
  run.preserves (fun _ _ step => settles_step step (by simp)) within

end OpeningTag

end MarkupActions
