import MarkupActions.Proofs.Edges
import MarkupActions.Proofs.Mending
import MarkupActions.Proofs.Respelling

/-!
# Passes as edits

What the passes in front of stripping do to a text is edits, and all of them go over transparent
text as if it were not there.
-/

namespace MarkupActions

namespace Repair

variable {repairs : List Repair}

theorem applyAll_transparent {u : Text} (clear : Transparent u)
    (orderly : ∀ repair ∈ repairs, repair.mendsTags = true) (s : Text) :
    applyAll repairs (u ++ s) = u ++ applyAll repairs s := by
  refine applyAll_append (fun repair inside t => ?_) s
  rw [apply_eq (orderly repair inside), apply_eq (orderly repair inside),
    clear.mend repair (orderly repair inside)]

theorem applyAll_rewrites (orderly : ∀ repair ∈ repairs, repair.mendsTags = true) (s : Text) :
    Rewrites Mends s (applyAll repairs s) := by
  unfold applyAll
  induction repairs generalizing s with
  | nil => exact .refl s
  | cons repair repairs ih =>
    exact (apply_rewrites (orderly repair List.mem_cons_self) s).trans
      (ih (fun other inside => orderly other (List.mem_cons_of_mem _ inside)) _)

end Repair

theorem Layout.text_mapGaps_rewrites {Part : Type} {edit : Text → Text → Prop}
    {write : Part → Text} {f : Text → Text} (made : ∀ s, Rewrites edit s (f s))
    (l : Layout Part) : Rewrites edit (l.text write) ((l.mapGaps f).text write) := by
  induction l with
  | last gap => exact made gap
  | next gap part rest ih => exact ((made gap).append_right (write part)).append ih

namespace Registry

variable {family : Family}

/-- Mending by one family is edits. -/
theorem mendWith_rewrites {table : SpellingTable}
    (orderly : ∀ repair ∈ family.repairs, repair.mendsTags = true) (s : Text) :
    Rewrites Mends s (mendWith table s family) := by
  have made := @Layout.text_mapGaps_rewrites _ Mends Block.text _ (Repair.applyAll_rewrites orderly)
    ((table.anySpellingMatcher.layout s).select (foreign table family) Block.text)
  rw [Layout.text_select, Matcher.layout_text] at made
  rw [mendWith_eq]
  exact made

/-- Mending by some families in turn is edits. -/
theorem foldl_mendWith_rewrites {table : SpellingTable} {families : List Family}
    (orderly : ∀ family ∈ families, ∀ repair ∈ family.repairs, repair.mendsTags = true)
    (s : Text) : Rewrites Mends s (families.foldl (mendWith table) s) := by
  induction families generalizing s with
  | nil => exact .refl s
  | cons family families ih =>
    exact (mendWith_rewrites (orderly family List.mem_cons_self) s).trans
      (ih (fun other inside => orderly other (List.mem_cons_of_mem _ inside)) _)

theorem mend_rewrites (s : Text) : Rewrites Mends s (builtIn.mend s) :=
  foldl_mendWith_rewrites Repair.builtIn_mendsTags s

theorem mendWith_transparent {u : Text} (clear : Transparent u)
    (orderly : ∀ repair ∈ family.repairs, repair.mendsTags = true) (s : Text) :
    mendWith builtIn.table (u ++ s) family = u ++ mendWith builtIn.table s family := by
  rw [mendWith_eq, mendWith_eq, clear.cut, Layout.select_prepend, Repair.applyOutside,
    Layout.mapGaps_prepend (Repair.applyAll_transparent clear orderly), Layout.text_prepend,
    Repair.applyOutside]

theorem mend_transparent {u : Text} (clear : Transparent u) (s : Text) :
    builtIn.mend (u ++ s) = u ++ builtIn.mend s :=
  foldl_mendWith
    (fun _ inside t => mendWith_transparent clear (Repair.builtIn_mendsTags _ inside) t) s

end Registry

namespace Matcher

/-- Names of tags only, and all of blocks that bear content. -/
def BearsContent (m : Matcher) : Prop :=
  ∀ entry ∈ m.modes, entry.2 = .content ∧ Repair.fits entry.1 = true

theorem bearsContent_anySpelling : BearsContent Registry.builtIn.table.anySpellingMatcher := by
  unfold BearsContent
  decide +kernel

theorem BearsContent.of_mode? {m : Matcher} (bears : BearsContent m) {name : Text}
    {mode : ScanMode} (known : m.mode? name = some mode) :
    mode = .content ∧ Repair.fits name = true := by
  obtain ⟨front, back, whole, _⟩ := List.lookup_eq_some_iff.mp known
  exact bears (name, mode) (by rw [whole]; simp)

end Matcher

end MarkupActions
