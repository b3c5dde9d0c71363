import Mathlib.Data.List.Count
import MarkupActions.CommandLine.Session
import MarkupActions.Proofs.Kinds
import MarkupActions.Proofs.Reading

/-!
# Stricter screening

Screening decides of each payload whether it becomes an action, and has no other part in reading a
text. So if it is made stricter, some files and changes are no longer asked for, and all other
actions stand as they did and where they did.
-/

namespace MarkupActions

/-- A list that comes of another by leaving out elements with a property, the others in their old
order. -/
structure LeavesOut {α : Type} (p : α → Bool) (full rest : List α) : Prop where
  sublist : rest.Sublist full
  others : rest.filter (!p ·) = full.filter (!p ·)

namespace LeavesOut

variable {α β : Type} {p : α → Bool} {full rest full' rest' : List α}

theorem refl (full : List α) : LeavesOut p full full := ⟨.refl full, rfl⟩

/-- All of a list may be left out if all elements have the property. -/
theorem nil (all : ∀ a ∈ full, p a = true) : LeavesOut p full [] where
  sublist := List.nil_sublist full
  others := by
    symm
    rw [List.filter_nil, List.filter_eq_nil_iff]
    intro a inside
    simp [all a inside]

theorem append (front : LeavesOut p full rest) (back : LeavesOut p full' rest') :
    LeavesOut p (full ++ full') (rest ++ rest') where
  sublist := front.sublist.append back.sublist
  others := by rw [List.filter_append, List.filter_append, front.others, back.others]

theorem flatMap {f g : β → List α} {list : List β} (each : ∀ b ∈ list, LeavesOut p (f b) (g b)) :
    LeavesOut p (list.flatMap f) (list.flatMap g) := by
  induction list with
  | nil => exact refl []
  | cons b list ih =>
    have later := ih fun b inside => each b (List.mem_cons_of_mem _ inside)
    rw [List.flatMap_cons, List.flatMap_cons]
    exact (each b List.mem_cons_self).append later

/-- What is missing of a list has the property. -/
theorem of_mem_diff [DecidableEq α] (leaves : LeavesOut p full rest) {a : α}
    (missing : a ∈ full.diff rest) :
    p a = true := by
  by_contra other
  have fewer : rest.count a < full.count a := by
    have some := List.count_pos_iff.mpr missing
    rw [List.count_diff] at some
    omega
  have kept : (!p a) = true := by simpa using other
  have same := congrArg (List.count a) leaves.others
  rw [List.count_filter (p := fun b => !p b) kept, List.count_filter (p := fun b => !p b) kept]
    at same
  omega

end LeavesOut

namespace Screening

variable {strict lax : Screening} {payload path : Text}

/-- A threshold that turns down what the other does: if the other is not off, then neither is this
one, and it is not larger. -/
def Tightens (strict lax : UInt64) : Prop := lax ≠ 0 → strict ≠ 0 ∧ strict ≤ lax

/-- A screening that turns down whatever another one does. -/
structure AtLeastAsStrict (strict lax : Screening) : Prop where
  selfEdits : lax.selfEdits = true → strict.selfEdits = true
  distinctTags : Tightens strict.maxDistinctTags lax.maxDistinctTags
  escapedNewlines : Tightens strict.maxEscapedNewlines lax.maxEscapedNewlines

theorem Tightens.toNat {strict lax : UInt64} (tighter : Tightens strict lax) (on : lax.toNat ≠ 0) :
    strict.toNat ≠ 0 ∧ strict.toNat ≤ lax.toNat := by
  obtain ⟨on', less⟩ := tighter fun off => on (by rw [off]; rfl)
  exact ⟨fun off => on' (UInt64.toNat_inj.mp off), UInt64.le_iff_toNat_le.mp less⟩

theorem tagSoup?_eq_none {limit : Nat} :
    tagSoup? limit payload = none ↔ ¬ (limit ≠ 0 ∧ limit ≤ rawTags.countP (·.occurs payload)) := by
  simp [tagSoup?]

theorem escapedNewlines?_eq_none {limit : Nat} :
    escapedNewlines? limit payload = none ↔
      ¬ (limit ≠ 0 ∧ limit < Screening.escapedNewlines payload ∧
      Text.occurrences '\n' payload < Screening.escapedNewlines payload) := by
  simp [escapedNewlines?]

/-- What a stricter screening lets pass, a laxer one does. -/
theorem check_of_stricter (stricter : AtLeastAsStrict strict lax)
    (passed : strict.check payload path = none) :
    lax.check payload path = none := by
  simp only [check, Option.or_eq_none_iff, tagSoup?_eq_none, escapedNewlines?_eq_none] at passed ⊢
  obtain ⟨nested, soup, newlines⟩ := passed
  refine ⟨?_, fun ⟨on, reached⟩ => ?_, fun ⟨on, reached, more⟩ => ?_⟩
  · by_cases looked : lax.selfEdits = true
    · rw [if_pos (stricter.selfEdits looked)] at nested
      rwa [if_pos looked]
    · rw [if_neg looked]
  · obtain ⟨on', less⟩ := stricter.distinctTags.toNat on
    exact soup ⟨on', Nat.le_trans less reached⟩
  · obtain ⟨on', less⟩ := stricter.escapedNewlines.toNat on
    exact newlines ⟨on', Nat.lt_of_le_of_lt less reached, more⟩

end Screening

/-- Whether an action bears a payload that has been screened. -/
def Action.isScreened (action : Action) : Bool := [Kind.write, .create, .edit].contains action.kind

namespace Family

open Screening (AtLeastAsStrict check_of_stricter)

variable {strict lax : Screening}

/-- The file of a block is the same one under a stricter screening, or none. -/
theorem file?_stricter (stricter : AtLeastAsStrict strict lax) (block : Block) :
    file? strict block = file? lax block ∨ file? strict block = none := by
  unfold file?
  cases pathAndBody? none block with
  | none => exact .inl rfl
  | some found =>
    obtain ⟨path, body⟩ := found
    simp only [Option.bind_eq_bind, Option.bind_some]
    cases passed : strict.check body path with
    | none => simp [check_of_stricter stricter passed]
    | some _ => exact .inr rfl

theorem files_stricter (stricter : AtLeastAsStrict strict lax) (make : FileContent → Action)
    (screened : ∀ file, (make file).isScreened = true) (blocks : List Block) :
    LeavesOut Action.isScreened ((blocks.filterMap (file? lax)).map make)
      ((blocks.filterMap (file? strict)).map make) := by
  rw [List.map_filterMap, List.map_filterMap, List.filterMap_eq_flatMap_toList,
    List.filterMap_eq_flatMap_toList]
  refine LeavesOut.flatMap fun block _ => ?_
  rcases file?_stricter stricter block with same | none
  · rw [same]
    exact .refl _
  · rw [none]
    refine .nil fun action inside => ?_
    obtain ⟨file, _, rfl⟩ := Option.map_eq_some_iff.mp (Option.mem_toList.mp inside)
    exact screened file

theorem edits_stricter (stricter : AtLeastAsStrict strict lax) (inherited : Option Text)
    (block : Block) :
    LeavesOut Action.isScreened (edits lax inherited block) (edits strict inherited block) := by
  have screened : ∀ action ∈ edits lax inherited block, action.isScreened = true := by
    intro action inside
    rw [Action.isScreened, edits_kind inside]
    rfl
  have same : edits strict inherited block = edits lax inherited block ∨
    edits strict inherited block = [] := by
    unfold edits
    cases pathAndBody? inherited block with
    | none => exact .inl rfl
    | some found =>
      obtain ⟨path, body⟩ := found
      cases passed : strict.check body path with
      | none => simp [passed, check_of_stricter stricter passed]
      | some _ => simp [passed]
  rcases same with same | none
  · rw [same]
    exact .refl _
  · rw [none]
    exact .nil screened

theorem editActions_stricter (stricter : AtLeastAsStrict strict lax) (block : Block) :
    LeavesOut Action.isScreened (editActions lax block) (editActions strict block) := by
  unfold editActions multiEdits
  split
  · split
    · exact .refl []
    · exact LeavesOut.flatMap fun inner _ => edits_stricter stricter _ inner
  · exact edits_stricter stricter none block

/-- Three of the built-in families screen what they find. -/
theorem extract_unscreened (strict lax : Screening) {family : Family} (member : family ∈ builtIn) :
    family = write ∨ family = create ∨ family = edit ∨
      family.extract strict = family.extract lax := by
  simp only [builtIn, List.mem_cons, List.not_mem_nil, or_false] at member
  rcases member with rfl | rfl | rfl | rfl | rfl | rfl | rfl | rfl | rfl | rfl | rfl | rfl | rfl
    | rfl | rfl | rfl | rfl |
    rfl | rfl
  · exact .inl rfl
  · exact .inr (.inl rfl)
  · exact .inr (.inr (.inl rfl))
  all_goals exact .inr (.inr (.inr rfl))

/-- Of a text a family finds the same actions under a stricter screening, less some of those that
are screened. -/
theorem builtIn_stricter (stricter : AtLeastAsStrict strict lax) :
    ∀ family ∈ builtIn, ∀ s, LeavesOut Action.isScreened (family.extract lax s)
      (family.extract strict s) := by
  intro family member s
  rcases extract_unscreened strict lax member with rfl | rfl | rfl | same
  · exact files_stricter stricter .write (fun _ => rfl) _
  · exact files_stricter stricter .create (fun _ => rfl) _
  · exact LeavesOut.flatMap fun block _ => editActions_stricter stricter block
  · rw [same]
    exact .refl _

end Family

namespace Registry

open Screening (AtLeastAsStrict)

variable {strict lax : Screening} {p : Action → Bool}

theorem readInTurn_stricter {families : List Family}
    (each : ∀ family ∈ families, ∀ s, LeavesOut p (family.extract lax s) (family.extract strict s))
    (s : Text) :
    LeavesOut p (readInTurn lax families s) (readInTurn strict families s) := by
  induction families generalizing s with
  | nil => exact .refl []
  | cons family families ih =>
    have later := ih (fun other inside => each other (List.mem_cons_of_mem _ inside))
      (family.retire s)
    exact (each family List.mem_cons_self s).append later

/-- What is so of each family is so of all that are registered, since screening has no part in
preparing a text. -/
theorem extract_stricter {registry : Registry}
    (each : ∀ family ∈ registry.families, ∀ s,
      LeavesOut p (family.extract lax s) (family.extract strict s)) (s : Text) :
    LeavesOut p (registry.extract lax s) (registry.extract strict s) := by
  have content : ∀ family ∈ registry.contentFamilies, ∀ s,
      LeavesOut p (family.extract lax s) (family.extract strict s) :=
    fun family inside => each family (List.mem_filter.mp inside).1
  have structural : ∀ family ∈ registry.structuralFamilies, ∀ s,
      LeavesOut p (family.extract lax s) (family.extract strict s) :=
    fun family inside => each family (List.mem_filter.mp inside).1
  rw [extract, extract, readWorking, readWorking]
  exact (LeavesOut.flatMap fun family inside => content family inside _).append
    (readInTurn_stricter structural _)

end Registry

namespace ParserSettings

open CommandLine (actionsOf)

/-- Under settings that differ in their screening alone, the stricter ones lose files and changes
and nothing else. -/
theorem actionsOf_stricter (strict lax : ParserSettings)
    (same : strict.disabledTags = lax.disabledTags)
    (stricter : strict.screening.AtLeastAsStrict lax.screening) (text : Text) :
    (actionsOf strict text).Sublist (actionsOf lax text) ∧
      ∀ action ∈ (actionsOf lax text).diff (actionsOf strict text), action.kind ∈
        [Kind.write, .create, .edit] := by
  have registry : strict.registry = lax.registry := by
    rw [ParserSettings.registry, ParserSettings.registry, same]
  have leaves : LeavesOut Action.isScreened (actionsOf lax text) (actionsOf strict text) := by
    rw [actionsOf, actionsOf, registry]
    refine Registry.extract_stricter (fun family inside => ?_) text
    exact Family.builtIn_stricter stricter family (List.mem_filter.mp inside).1
  refine ⟨leaves.sublist, fun action missing => ?_⟩
  exact List.contains_iff_mem.mp (leaves.of_mem_diff missing)

/-- With a lower threshold for raw tags a note that quotes a command is turned down, and the file is
read after it. -/
theorem actionsOf_quoted_command :
    let strict : ParserSettings := { screening := { maxDistinctTags := 2 } }
    let lax : ParserSettings := {}
    let text := "<write path=\"notes.md\"><bash>ls</bash></write><read path=\"notes.md\"/>".toList
    strict.disabledTags = lax.disabledTags ∧ strict.screening.AtLeastAsStrict lax.screening ∧
      ((actionsOf strict text).Sublist (actionsOf lax text) ∧
        ∀ action ∈ (actionsOf lax text).diff (actionsOf strict text),
          action.kind ∈ [Kind.write, .create, .edit]) ∧
      (actionsOf lax text).map Action.kind = [.write, .read] ∧
        (actionsOf strict text).map Action.kind = [.read] := by
  intro strict lax text
  have stricter : strict.screening.AtLeastAsStrict lax.screening :=
    ⟨fun _ => rfl, fun _ => by decide, fun _ => by decide⟩
  exact ⟨rfl, stricter, actionsOf_stricter strict lax rfl stricter text,
    by decide +kernel, by decide +kernel⟩

end ParserSettings

end MarkupActions
