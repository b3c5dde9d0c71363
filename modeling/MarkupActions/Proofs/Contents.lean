import MarkupActions.Proofs.Shells
import MarkupActions.Proofs.Stripping

/-!
# Contents of inert regions

What stands before an inert region stays when a text is stripped, and what stands behind it is
stripped as if it began there. The content of the region plays no part in either, so long as it does
not end the region itself: whatever tags or marks it holds, nothing of it is seen.
-/

namespace MarkupActions

open Code (tick)

namespace Inert

/-- Stripping takes out an inert region whatever it holds: what comes before it stays as it is, and
what comes behind it is stripped on its own. -/
theorem strip_contents (guarded : Matcher) {shell : Shell} {before content after : Text}
    (prose : Prose before) (holds : shell.Holds content) (fits : shell.Fits before after) :
    strip guarded true (before ++ (shell.wrap content ++ after)) =
      before ++ strip guarded false after := by
  rw [strip_clear (Shell.clear prose holds fits),
    strip_region (Shell.regionLength?_wrap holds fits) (Shell.wrap_ne_nil holds)]

/-- A fence with a tag in it, between two rows. -/
theorem strip_contents_fence :
    strip Matcher.empty true "see\n\x60\x60\x60\n<read/>\n\x60\x60\x60\nend".toList =
      "see\n\nend".toList := by
  have prose : Prose "see\n".toList := ⟨by decide, by decide, by decide⟩
  have taken := @strip_contents Matcher.empty
    (.fence [tick, tick, tick] [tick, tick, tick] tick 3 (by decide) (by decide) (by decide)
      (by decide))
    "see\n".toList "<read/>\n".toList "\nend".toList prose (by decide +kernel)
    ⟨.inr (by decide), .inr ⟨"end".toList, by decide⟩⟩
  have behind : strip Matcher.empty false "\nend".toList = "\nend".toList := by decide +kernel
  rw [behind] at taken
  exact taken

end Inert

end MarkupActions
