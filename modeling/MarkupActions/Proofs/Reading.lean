import MarkupActions.Proofs.Layouts
import MarkupActions.Registry.Extract

/-!
# Reading a prepared text

Of the built-in families only the plan takes its blocks out of the text, so that what one family
leaves for the next is the same text but in one place.
-/

namespace MarkupActions

namespace Family

theorem retire_of_nil {family : Family} (none : family.retired = []) (s : Text) :
    family.retire s = s := by
  simp [retire, none]

theorem foldl_retire {families : List Family} (none : ∀ family ∈ families, family.retired = [])
    (s : Text) :
    families.foldl (fun s family => family.retire s) s = s := by
  induction families with
  | nil => rfl
  | cons family families ih =>
    rw [List.foldl_cons, retire_of_nil (none family List.mem_cons_self)]
    exact ih fun family inside => none family (List.mem_cons_of_mem _ inside)

/-- A family leaves a text alone in which none of its blocks stand. -/
theorem retire_of_blocks_nil {family : Family} {s : Text}
    (none : (Matcher.of .structural family.retired).blocks s = []) : family.retire s = s := by
  unfold retire
  split
  · rfl
  · exact (Layout.gaps_of_parts_nil none).trans (Matcher.layout_text _ s)

end Family

namespace Registry

theorem content_keeps : ∀ family ∈ builtIn.contentFamilies, family.retired = [] := by
  decide

theorem structural_order : builtIn.structuralFamilies =
    Family.plan :: builtIn.structuralFamilies.tail := rfl

theorem structural_tail_keeps : ∀ family ∈ builtIn.structuralFamilies.tail, family.retired =
    [] := by
  decide

/-- How a prepared text is read if no family that bears content takes anything out. -/
theorem readWorking_eq {registry : Registry}
    (keeps : ∀ family ∈ registry.contentFamilies, family.retired = [])
    (screening : Screening) (s : Text) :
    registry.readWorking screening s =
      registry.contentFamilies.flatMap (fun family =>
          family.extract screening (view (registry.table.contentMatcher.layout s) family)) ++
        readInTurn screening registry.structuralFamilies
          (registry.table.contentMatcher.removeBlocks s) := by
  simp only [readWorking, Family.foldl_retire keeps, Matcher.removeBlocks]

theorem mem_readInTurn {screening : Screening} {families : List Family} {s : Text} {action : Action}
    (found : action ∈ readInTurn screening families s) :
    ∃ family ∈ families, ∃ t, action ∈ family.extract screening t := by
  induction families generalizing s with
  | nil => simp [readInTurn] at found
  | cons family families ih =>
    rw [readInTurn, List.mem_append] at found
    rcases found with first | later
    · exact ⟨family, List.mem_cons_self, s, first⟩
    · obtain ⟨other, inside, t, found⟩ := ih later
      exact ⟨other, List.mem_cons_of_mem _ inside, t, found⟩

/-- Whatever is found has been found by one of the families. -/
theorem mem_readWorking {registry : Registry} {screening : Screening} {s : Text} {action : Action}
    (found : action ∈ registry.readWorking screening s) :
    ∃ family ∈ registry.families, ∃ t, action ∈ family.extract screening t := by
  rw [readWorking, List.mem_append] at found
  rcases found with content | structural
  · obtain ⟨family, inside, found⟩ := List.mem_flatMap.mp content
    exact ⟨family, (List.mem_filter.mp inside).1, _, found⟩
  · obtain ⟨family, inside, t, found⟩ := mem_readInTurn structural
    exact ⟨family, (List.mem_filter.mp inside).1, t, found⟩

end Registry

end MarkupActions
