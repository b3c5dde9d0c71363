import MarkupActions.Proofs.Lone
import MarkupActions.Proofs.Runs

/-!
# A framed text asks for nothing

A text that is framed as a whole comes through mending and renaming with its frame: neither puts
anything between the marks of a run, and the end of a tag that breaks off at the closing mark is put
in behind it. So the text is inert from its first mark to its last, whatever tags it shows.
-/

namespace MarkupActions

open Code (tick)

namespace Registry

theorem remains_mend {frame : Frame} {families : List Family}
    (among : ∀ family ∈ families, family ∈ Family.builtIn) {s : Text} (remains : frame.Remains s) :
    frame.Remains (families.foldl (mendWith builtIn.table) s) := by
  induction families generalizing s with
  | nil => exact remains
  | cons family families ih =>
    exact ih (fun other inside => among other (List.mem_cons_of_mem _ inside))
      (Frame.remains_mended (among family List.mem_cons_self) remains)

/-- Of a framed text nothing is left to be read but perhaps the end of a tag. -/
theorem working_framed (frame : Frame) {content : Text} (holds : frame.Holds content) :
    Ends (builtIn.working (frame.wrap content)) := by
  have clear := frame.transparent_opening
  have mended := remains_mend (fun family (inside : family ∈ builtIn.families) => inside)
    (Frame.remains_closing holds)
  obtain ⟨region, tail, whole, more, only, found⟩ := @Frame.region_remains frame _ true
    (Frame.remains_respelled (SpellingTable.rename_rewrites _) mended) fun _ => rfl
  have prepared : builtIn.normalize (builtIn.mend (frame.wrap content)) = region ++ tail := by
    rw [Frame.wrap, mend_transparent clear, normalize, clear.rename, ← whole]
    rfl
  rw [working, prepared, Inert.strip_region found more, Inert.strip_ends only]
  exact only

/-- A text that is framed as a whole asks for nothing, whatever it shows. -/
theorem extract_framed (screening : Screening) (frame : Frame) {content : Text}
    (holds : frame.Holds content) : builtIn.extract screening (frame.wrap content) = [] :=
  readWorking_unmarked screening (ends_unmarked (working_framed frame holds) (by decide))

/-- A fence of four tildes shows a shorter fence, a command, and a tag that breaks off at its end.
-/
theorem extract_framed_tildes :
    builtIn.extract {} (Frame.wrap (FenceMark.frame ⟨2, '~', 4, " sh".toList, 0, by decide,
      by decide, by decide, by decide, by decide, by decide, by decide⟩)
      "~~~\n<bash>ls</bash>\n<read path=\"a\"".toList) = [] :=
  extract_framed {} _ (by decide +kernel)

end Registry

end MarkupActions
