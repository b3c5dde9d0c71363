import MarkupActions.Proofs.Closing
import MarkupActions.Proofs.Kinds
import MarkupActions.Proofs.Reading
import MarkupActions.Proofs.Regions
import MarkupActions.Proofs.Scanning

/-!
# Reading one tag

In a text with no tag but one at its head there is nothing that could close, so what comes after the
tag is passed over by every family. Text without tags may be put behind it.
-/

namespace MarkupActions

open OpeningTag (settles)

/-- A text in which nothing is marked up but perhaps a tag at its head. -/
def Lone (s : Text) : Prop := '<' ∉ s ∨ ∃ u, s = '<' :: u ∧ '<' ∉ u ∧ settles none u = true

theorem closing?_unmarked {mode : ScanMode} {name s : Text} (tags : '<' ∉ s) :
    closing? mode (ClosingTag.length? name) s = none := by
  refine closing?_of_covered fun front tail n whole closes => ?_
  subst whole
  obtain ⟨lead, blanks, rest, rfl, lower, _⟩ := ClosingTag.length?_eq_some.mp closes
  obtain ⟨c, inner, rfl, bracket, _⟩ := List.map_eq_cons_iff.mp lower
  obtain rfl := Text.eq_of_toLower_eq (by decide) bracket
  exact False.elim (tags (by simp))

/-- What belongs to a tag that nothing marked up follows. -/
theorem extentOf_unmarked (mode : ScanMode) (tag : OpeningTag) {s : Text} (tags : '<' ∉ s) :
    extentOf mode tag s = if tag.closesItself then .closesItself else .unclosed := by
  unfold extentOf
  rw [closing?_unmarked tags]

namespace Matcher

variable {m : Matcher}

theorem layout_unmarked {s : Text} (tags : '<' ∉ s) : m.layout s = .last s := by
  have cut := layout_prose (m := m) tags []
  rwa [List.append_nil, layout, Layout.prepend_last, List.append_nil] at cut

theorem blocks_unmarked {s : Text} (tags : '<' ∉ s) (m : Matcher) : m.blocks s = [] := by
  rw [blocks, layout_unmarked tags]
  rfl

/-- Nothing is cut in such a text, or its one tag. -/
theorem layout_lone {s : Text} (lone : Lone s) (m : Matcher) :
    (∀ tail, '<' ∉ tail → m.layout (s ++ tail) = .last (s ++ tail)) ∨
      ∃ block rest, '<' ∉ rest ∧ s = Block.text block ++ rest ∧
        ∀ tail, '<' ∉ tail → m.layout (s ++ tail) = .next [] block (.last (rest ++ tail)) := by
  rcases lone with tags | ⟨u, rfl, tags, settled⟩
  · exact .inl fun tail none => layout_unmarked (by simp [tags, none])
  · have same := OpeningTag.read?_append settled
    cases read : OpeningTag.read? ('<' :: u) with
    | none =>
      left
      intro tail none
      rw [List.cons_append, layout_cons ((same tail).trans read),
        layout_unmarked (by simp [tags, none])]
      rfl
    | some tag =>
      obtain ⟨rest, whole⟩ := OpeningTag.read?_split read
      have past : '<' ∉ rest := by
        obtain ⟨_, inner⟩ := List.cons.inj whole
        exact fun inside => tags (by rw [inner]; simp [inside])
      have again : ∀ tail, OpeningTag.read? (tag.text ++ (rest ++ tail)) = some tag := by
        intro tail
        rw [← List.append_assoc, ← whole]
        exact (same tail).trans read
      rw [whole]
      cases known : m.mode? tag.key with
      | none =>
        left
        intro tail none
        rw [List.append_assoc, layout_tag (again tail) known,
          layout_unmarked (by simp [past, none])]
        rfl
      | some mode =>
        right
        have written : (Block.mk tag (if tag.closesItself then .closesItself else .unclosed)).text =
          tag.text := by
          cases tag.closesItself <;> rfl
        refine ⟨⟨tag, if tag.closesItself then .closesItself else .unclosed⟩, rest, past,
          by rw [written], ?_⟩
        intro tail none
        have unmarked : '<' ∉ rest ++ tail := by simp [past, none]
        have found : m.blockAt? ((Block.mk tag
          (if tag.closesItself then .closesItself else .unclosed)).text ++
            (rest ++ tail)) = some ⟨tag, if tag.closesItself then .closesItself
              else .unclosed⟩ := by
          simp [blockAt?, written, again, blockOf?, known, extentOf_unmarked mode tag unmarked]
        have cut := layout_block found
        rwa [written, layout_unmarked unmarked, ← List.append_assoc] at cut

/-- The blocks are the same with text behind. -/
theorem blocks_lone {s : Text} (lone : Lone s) (m : Matcher) :
    ∃ found, ∀ tail, '<' ∉ tail → m.blocks (s ++ tail) = found := by
  rcases layout_lone lone m with cut | ⟨block, rest, _, _, cut⟩
  · exact ⟨[], fun tail none => by rw [blocks, cut tail none]; rfl⟩
  · exact ⟨[block], fun tail none => by rw [blocks, cut tail none]; rfl⟩

theorem gaps_lone {s : Text} (lone : Lone s) (m : Matcher) (p : Block → Bool) :
    ∃ left, Lone left ∧ ∀ tail, '<' ∉ tail →
      ((m.layout (s ++ tail)).select p Block.text).gaps = left ++ tail := by
  rcases layout_lone lone m with cut | ⟨block, rest, tags, whole, cut⟩
  · exact ⟨s, lone, fun tail none => by rw [cut tail none]; rfl⟩
  · cases taken : p block with
    | true =>
      refine ⟨rest, .inl tags, fun tail none => ?_⟩
      rw [cut tail none]
      simp [Layout.select, taken, Layout.gaps, Layout.text]
    | false =>
      refine ⟨s, lone, fun tail none => ?_⟩
      rw [cut tail none, whole]
      simp [Layout.select, taken, Layout.gaps, Layout.text]

theorem removeBlocks_lone {s : Text} (lone : Lone s) (m : Matcher) :
    ∃ left, Lone left ∧ ∀ tail, '<' ∉ tail → m.removeBlocks (s ++ tail) = left ++ tail := by
  rcases layout_lone lone m with cut | ⟨block, rest, tags, _, cut⟩
  · exact ⟨s, lone, fun tail none => by rw [removeBlocks, cut tail none]; rfl⟩
  · exact ⟨rest, .inl tags, fun tail none =>
      by rw [removeBlocks, cut tail none]; simp [Layout.gaps, Layout.text]⟩

end Matcher

namespace Family

theorem retire_unmarked {s : Text} (tags : '<' ∉ s) (family : Family) : family.retire s = s :=
  retire_of_blocks_nil (Matcher.blocks_unmarked tags _)

theorem extract_unmarked {family : Family} (reads : family.ReadsBlocks) (screening : Screening)
    {s : Text}
    (tags : '<' ∉ s) : family.extract screening s = [] := by
  obtain ⟨m, make, same, _⟩ := reads
  rw [same, Matcher.blocks_unmarked tags]
  rfl

theorem retire_lone {s : Text} (lone : Lone s) (family : Family) :
    ∃ left, Lone left ∧ ∀ tail, '<' ∉ tail → family.retire (s ++ tail) = left ++ tail := by
  unfold retire
  split
  · exact ⟨s, lone, fun tail _ => rfl⟩
  · exact Matcher.removeBlocks_lone lone _

theorem extract_lone {family : Family} (reads : family.ReadsBlocks) (screening : Screening)
    {s : Text} (lone : Lone s) :
    ∃ actions, ∀ tail, '<' ∉ tail → family.extract screening (s ++ tail) = actions := by
  obtain ⟨m, make, same, _⟩ := reads
  obtain ⟨blocks, found⟩ := Matcher.blocks_lone lone m
  exact ⟨blocks.flatMap (make screening), fun tail none => by rw [same, found tail none]⟩

end Family

namespace Registry

variable (screening : Screening) {s : Text}

theorem contentFamilies_readBlocks : ∀ family ∈ builtIn.contentFamilies, family.ReadsBlocks :=
  fun _ inside => Family.builtIn_readsBlocks (List.mem_filter.mp inside).1

theorem structuralFamilies_readBlocks : ∀ family ∈ builtIn.structuralFamilies, family.ReadsBlocks :=
  fun _ inside => Family.builtIn_readsBlocks (List.mem_filter.mp inside).1

theorem readInTurn_unmarked (tags : '<' ∉ s) {families : List Family}
    (reads : ∀ family ∈ families, family.ReadsBlocks) :
    readInTurn screening families s = [] := by
  induction families with
  | nil => rfl
  | cons family families ih =>
    rw [readInTurn, Family.extract_unmarked (reads family List.mem_cons_self) screening tags,
      Family.retire_unmarked tags, ih fun other inside =>
        reads other (List.mem_cons_of_mem _ inside)]
    rfl

/-- A text without tags asks for nothing. -/
theorem readWorking_unmarked (tags : '<' ∉ s) : builtIn.readWorking screening s = [] := by
  have none : builtIn.contentFamilies.flatMap (fun family => family.extract screening
      (view (builtIn.table.contentMatcher.layout s) family)) = [] := by
    refine List.flatMap_eq_nil_iff.mpr fun family inside => ?_
    rw [Matcher.layout_unmarked tags]
    exact Family.extract_unmarked (contentFamilies_readBlocks family inside) screening tags
  have left : builtIn.table.contentMatcher.removeBlocks s = s := by
    rw [Matcher.removeBlocks, Matcher.layout_unmarked tags]
    rfl
  rw [readWorking_eq content_keeps, none, left,
    readInTurn_unmarked screening tags structuralFamilies_readBlocks]
  rfl

theorem readInTurn_lone (lone : Lone s) {families : List Family}
    (reads : ∀ family ∈ families, family.ReadsBlocks) :
    ∃ actions, ∀ tail, '<' ∉ tail → readInTurn screening families (s ++ tail) = actions := by
  induction families generalizing s with
  | nil => exact ⟨[], fun _ _ => rfl⟩
  | cons family families ih =>
    obtain ⟨actions, found⟩ := Family.extract_lone (reads family List.mem_cons_self) screening lone
    obtain ⟨left, lone', retired⟩ := Family.retire_lone lone family
    obtain ⟨more, later⟩ := ih lone' fun other inside => reads other (List.mem_cons_of_mem _ inside)
    exact ⟨actions ++ more, fun tail none =>
      by rw [readInTurn, found tail none, retired tail none, later tail none]⟩

theorem flatMap_lone (lone : Lone s) (m : Matcher) {families : List Family}
    (reads : ∀ family ∈ families, family.ReadsBlocks) :
    ∃ actions, ∀ tail, '<' ∉ tail →
      families.flatMap (fun family => family.extract screening (view (m.layout (s ++ tail)) family))
        = actions := by
  induction families with
  | nil => exact ⟨[], fun _ _ => rfl⟩
  | cons family families ih =>
    obtain ⟨left, lone', viewed⟩ := Matcher.gaps_lone lone m fun block => !family.owns block.name
    obtain ⟨actions, found⟩ := Family.extract_lone (reads family List.mem_cons_self) screening lone'
    obtain ⟨more, later⟩ := ih fun other inside => reads other (List.mem_cons_of_mem _ inside)
    exact ⟨actions ++ more, fun tail none => by
      rw [List.flatMap_cons, later tail none, view, viewed tail none, found tail none]⟩

/-- Text without tags behind such a text is of no consequence. -/
theorem readWorking_lone (lone : Lone s) :
    ∃ actions, ∀ tail, '<' ∉ tail → builtIn.readWorking screening (s ++ tail) = actions := by
  obtain ⟨first, found⟩ := flatMap_lone screening lone builtIn.table.contentMatcher
    contentFamilies_readBlocks
  obtain ⟨left, lone', removed⟩ := Matcher.removeBlocks_lone lone builtIn.table.contentMatcher
  obtain ⟨second, later⟩ := readInTurn_lone screening lone' structuralFamilies_readBlocks
  refine ⟨first ++ second, fun tail none => ?_⟩
  rw [readWorking_eq content_keeps, found tail none, removed tail none, later tail none]

end Registry

end MarkupActions
