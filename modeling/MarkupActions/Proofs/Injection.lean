import MarkupActions.Proofs.Enclosed
import MarkupActions.Proofs.Holding
import MarkupActions.Proofs.Stripping

/-!
# What is framed is not read

The content of a fence, of an inline span or of a literal block has no part in the actions of a
text. Mending and renaming go over a text before its inert regions are taken out, so this holds as
long as nothing that begins in the content ends behind its frame as these passes see it: no block
that bears content, no tag that they read or end. Blocks that are closed in the content are of no
harm.
-/

namespace MarkupActions

open Code (tick)

theorem Tame.head {edit : Text → Text → Prop} (tame : Tame edit) {s t : Text}
    (run : Rewrites edit s t) (other : s.head? ≠ some tick) : t.head? ≠ some tick := by
  intro first
  obtain ⟨t, rfl⟩ := List.head?_eq_some_iff.mp first
  obtain ⟨a, b, rfl, left, _⟩ := run.split_of_new (a := []) tame.ticks
  cases a with
  | nil => exact other rfl
  | cons c a => exact tame.ne_nil left (by simp) rfl

namespace Registry

theorem mend_nil : builtIn.mend [] = [] := by decide +kernel

variable {before content content' after : Text} {frame : Frame}

/-- What may stand around a frame still may when it is prepared. -/
theorem fits_prepared {shell : Shell} (fits : shell.Fits before after) :
    shell.Fits before (builtIn.normalize (builtIn.mend after)) := by
  cases shell with
  | fence =>
    obtain ⟨start, rfl | ⟨t, rfl⟩⟩ := fits
    · rw [mend_nil, normalize, SpellingTable.rename]
      exact ⟨start, .inl rfl⟩
    · have clear : Transparent ['\n'] := .prose (by decide)
      have mended := mend_transparent clear t
      have renamed := clear.rename (builtIn.mend t)
      simp only [List.cons_append, List.nil_append] at mended renamed
      rw [mended, normalize, renamed]
      exact ⟨start, .inr ⟨_, rfl⟩⟩
  | span =>
    exact tame_respells.head (SpellingTable.rename_rewrites _)
      (tame_mends.head (mend_rewrites after) fits)
  | literal => trivial

/-- A frame and its content are gone from the text that is read. -/
theorem working_wrapped (frame : Frame) (prose : Prose before) (holds : frame.Holds content)
    (fits : frame.shell.Fits before after)
    (apart : PreparesApart builtIn.table builtIn.families content (frame.closing ++ after)) :
    builtIn.working (before ++ (frame.wrap content ++ after)) =
      before ++ Inert.strip builtIn.table.guardedMatcher false
        (builtIn.normalize (builtIn.mend after)) := by
  have clear : Transparent (before ++ frame.opening) :=
    (Transparent.prose prose.tags).append frame.transparent_opening
  have split : ∀ s t, before ++ (frame.wrap s ++ t) =
      (before ++ frame.opening) ++ (s ++ (frame.closing ++ t)) := by
    intro s t
    simp [Frame.wrap]
  obtain ⟨mended, mend', made, stops⟩ := foldl_mendWith_content
    (fun family (inside : family ∈ builtIn.families) => inside) frame apart
  obtain ⟨renamed, rename', made'⟩ := rename_content frame stops
  have keeps : frame.Holds renamed :=
    Frame.holds_rewrites tame_respells made' (Frame.holds_rewrites tame_mends made holds)
  have prepared : builtIn.normalize (builtIn.mend (before ++ (frame.wrap content ++ after))) =
      before ++ (frame.wrap renamed ++ builtIn.normalize (builtIn.mend after)) := by
    rw [split, split, mend_transparent clear, normalize, clear.rename, mend, mend', rename']
    rfl
  have around := fits_prepared fits
  rw [working, prepared, Frame.wrap_eq, Inert.strip_clear (Shell.clear prose keeps around),
    Inert.strip_region (Shell.regionLength?_wrap keeps around) (Shell.wrap_ne_nil keeps)]

/-- What stands in a frame is of no consequence to the actions of a text. -/
theorem extract_wrapped (screening : Screening) (frame : Frame) (prose : Prose before)
    (holds : frame.Holds content) (holds' : frame.Holds content')
    (fits : frame.shell.Fits before after)
    (apart : PreparesApart builtIn.table builtIn.families content (frame.closing ++ after))
    (apart' : PreparesApart builtIn.table builtIn.families content' (frame.closing ++ after)) :
    builtIn.extract screening (before ++ (frame.wrap content ++ after)) =
      builtIn.extract screening (before ++ (frame.wrap content' ++ after)) := by
  rw [extract, extract, working_wrapped frame prose holds fits apart,
    working_wrapped frame prose holds' fits apart']

/-- A message and a command that a fence shows are not sent and not run, and the message behind the
fence is sent. -/
theorem extract_fence :
    builtIn.extract {} ("See\n".toList ++
        (Frame.codeBlock.wrap "<say>hi</say>\n<bash>ls</bash>".toList ++
          "\n<say>real</say>".toList)) =
      builtIn.extract {} ("See\n".toList ++
        (Frame.codeBlock.wrap "x".toList ++ "\n<say>real</say>".toList)) := by
  refine extract_wrapped {} .codeBlock ⟨by decide, by decide, by decide⟩ (by decide +kernel)
    (by decide +kernel) ⟨.inr (by decide), .inr ⟨"<say>real</say>".toList, by decide⟩⟩ ?_ ?_
  · decide +kernel
  · decide +kernel

/-- A message that opens in a span and closes after it keeps the name in between from being made
canonical, so that the content of the span does matter. -/
theorem span_matters : ¬ ∀ (screening : Screening) (frame : Frame)
    (before content content' after : Text),
    Prose before → (before = [] ∨ before.getLast? = some '\n') → frame.Holds content →
    frame.Holds content' → frame.shell.Fits before after →
    builtIn.extract screening (before ++ (frame.wrap content ++ after)) =
      builtIn.extract screening (before ++ (frame.wrap content' ++ after)) := by
  intro always
  have same := always {} .codeSpan [] "<say>".toList "x".toList "<ls/></say>".toList
    ⟨by decide, by decide, by decide⟩ (.inl rfl) (by decide) (by decide)
    (show "<ls/></say>".toList.head? ≠ some tick by decide)
  revert same
  decide +kernel

/-- Tags that end behind the frame matter as well: one that a repair ends there, and one that hides
from the repairs that a message opens. -/
theorem tags_matter :
    builtIn.extract {} (Frame.codeBlock.wrap "<read path=".toList ++ "\n<ls/>".toList) ≠
      builtIn.extract {} (Frame.codeBlock.wrap "x".toList ++ "\n<ls/>".toList) ∧
    builtIn.extract {} (Frame.codeSpan.wrap "<a b=\"".toList ++
        "<say>\"><read path=\"a\"\n</say>".toList) ≠
      builtIn.extract {} (Frame.codeSpan.wrap "x".toList ++
        "<say>\"><read path=\"a\"\n</say>".toList) := by
  decide +kernel

end Registry

end MarkupActions
