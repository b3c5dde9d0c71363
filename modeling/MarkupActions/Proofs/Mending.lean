import MarkupActions.Proofs.Layouts
import MarkupActions.Proofs.Patching
import MarkupActions.Registry.Extract

/-!
# Mending around blocks

A family mends the gaps between the closed blocks of others. What a repair passes over as it stands,
in whatever text comes next, the whole of mending passes over as well.
-/

namespace MarkupActions

theorem Layout.mapGaps_prepend {Part : Type} {f : Text → Text} {v w : Text}
    (passes : ∀ s, f (v ++ s) = w ++ f s)
    (l : Layout Part) : (l.prepend v).mapGaps f = (l.mapGaps f).prepend w := by
  cases l with
  | last gap => simp [mapGaps, passes]
  | next gap part rest => simp [mapGaps, passes]

theorem Layout.mapGaps_id {Part : Type} (l : Layout Part) : l.mapGaps (fun s => s) = l := by
  induction l with
  | last gap => rfl
  | next gap part rest ih => rw [mapGaps, ih]

/-- What no step changes, no run of them changes. -/
theorem foldl_eq_self {α β : Type} {step : β → α → β} {s : β} {l : List α}
    (keeps : ∀ a ∈ l, step s a = s) :
    l.foldl step s = s := by
  induction l with
  | nil => rfl
  | cons a l ih =>
    rw [List.foldl_cons, keeps a List.mem_cons_self]
    exact ih fun b inside => keeps b (List.mem_cons_of_mem _ inside)

namespace Repair

theorem applyAll_append {repairs : List Repair} {v : Text}
    (passes : ∀ repair ∈ repairs, ∀ s, repair.apply (v ++ s) = v ++ repair.apply s) (s : Text) :
    applyAll repairs (v ++ s) = v ++ applyAll repairs s := by
  unfold applyAll
  induction repairs generalizing s with
  | nil => rfl
  | cons repair repairs ih =>
    rw [List.foldl_cons, List.foldl_cons, passes repair List.mem_cons_self]
    exact ih (fun other inside => passes other (List.mem_cons_of_mem _ inside)) _

theorem applyAll_prose {repairs : List Repair}
    (orderly : ∀ repair ∈ repairs, repair.mendsTags = true) {v : Text}
    (tags : '<' ∉ v) (s : Text) : applyAll repairs (v ++ s) = v ++ applyAll repairs s := by
  refine applyAll_append (fun repair inside t => ?_) s
  have fits := orderly repair inside
  rw [apply_eq fits, apply_eq fits, patchAll_append_unmarked fits tags]

theorem applyAll_nil {repairs : List Repair}
    (orderly : ∀ repair ∈ repairs, repair.mendsTags = true) :
    applyAll repairs [] = [] := by
  unfold applyAll
  induction repairs with
  | nil => rfl
  | cons repair repairs ih =>
    rw [List.foldl_cons, apply_eq (orderly repair List.mem_cons_self), Text.patchAll]
    exact ih fun other inside => orderly other (List.mem_cons_of_mem _ inside)

theorem applyAll_unmarked {repairs : List Repair}
    (orderly : ∀ repair ∈ repairs, repair.mendsTags = true) {v : Text}
    (tags : '<' ∉ v) : applyAll repairs v = v := by
  have kept := applyAll_prose orderly tags []
  rwa [applyAll_nil orderly, List.append_nil] at kept

end Repair

namespace Registry

/-- The closed blocks that a family does not touch. -/
def foreign (table : SpellingTable) (family : Family) (block : Block) : Bool :=
  block.isClosed && !(table.canonical? block.name).any family.owns

theorem mendWith_eq (table : SpellingTable) (s : Text) (family : Family) :
    mendWith table s family = Repair.applyOutside family.repairs Block.text
      ((table.anySpellingMatcher.layout s).select (foreign table family) Block.text) := by
  unfold mendWith
  by_cases empty : family.repairs = []
  · have none : Repair.applyAll [] = fun s => s := rfl
    simp only [empty, List.isEmpty_nil, if_true, Repair.applyOutside, none, Layout.mapGaps_id,
      Layout.text_select, Matcher.layout_text]
  · have some : family.repairs.isEmpty = false := by simpa using empty
    simp only [some, Bool.false_eq_true, if_false]
    rfl

variable {table : SpellingTable} {family : Family}

/-- Prose and a block after it are passed over if the family does not touch the block or finds
nothing to mend. -/
theorem mendWith_block (orderly : ∀ repair ∈ family.repairs, repair.mendsTags = true) {v s : Text}
    {block : Block}
    (tags : '<' ∉ v) (found : table.anySpellingMatcher.blockAt? (block.text ++ s) = some block)
    (passes : foreign table family block = false →
      ∀ repair ∈ family.repairs, ∀ t, repair.apply (block.text ++ t) = block.text ++ repair.apply t)
        :
    mendWith table (v ++ (block.text ++ s)) family = v ++
      (block.text ++ mendWith table s family) := by
  rw [mendWith_eq, mendWith_eq, Matcher.layout_prose tags, Matcher.layout_block found,
    Layout.prepend_next, Layout.select, List.append_nil]
  unfold Repair.applyOutside
  cases other : foreign table family block with
  | true =>
    simp [Layout.mapGaps, Layout.text, Repair.applyAll_unmarked orderly tags]
  | false =>
    have kept : ∀ t, Repair.applyAll family.repairs (v ++ block.text ++ t) =
        v ++ block.text ++ Repair.applyAll family.repairs t :=
          Repair.applyAll_append (fun repair inside t => by
      have fits := orderly repair inside
      rw [List.append_assoc, List.append_assoc, ← passes other repair inside t,
        Repair.apply_eq fits, Repair.apply_eq fits, Repair.patchAll_append_unmarked fits tags])
    simp [Layout.mapGaps_prepend kept]

theorem foldl_mendWith {families : List Family} {v : Text}
    (passes : ∀ family ∈ families, ∀ s, mendWith table (v ++ s) family = v ++
      mendWith table s family) (s : Text) :
    families.foldl (mendWith table) (v ++ s) = v ++ families.foldl (mendWith table) s := by
  induction families generalizing s with
  | nil => rfl
  | cons family families ih =>
    rw [List.foldl_cons, List.foldl_cons, passes family List.mem_cons_self]
    exact ih (fun other inside => passes other (List.mem_cons_of_mem _ inside)) _

end Registry

end MarkupActions
