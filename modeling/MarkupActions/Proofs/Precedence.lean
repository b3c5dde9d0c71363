import MarkupActions.Proofs.Lone
import MarkupActions.Proofs.Unclosed

/-!
# An open tag before a frame

A tag that opens in front of a fence, of an inline span or of a literal block makes nothing in it
live, but for one case: a literal block covers no closing tag, so one by a name of the tag ends the
block there if blocks of that tag are guarded.
-/

namespace MarkupActions

open Code (tick)

namespace Registry

open SpellingTable

variable {tag : OpeningTag} {canonical before content content' : Text} {frame : Frame}

/-- What stands in a frame behind an open tag is of no consequence to the actions of a text. -/
theorem extract_opened (screening : Screening) (opener : Opener tag canonical)
    (leads : Leads frame before)
    (holds : frame.Holds content) (holds' : frame.Holds content')
    (absent : frame.shell.isLiteral = true → NoneCloses (builtIn.table.closers canonical) content)
    (absent' : frame.shell.isLiteral = true → NoneCloses (builtIn.table.closers canonical) content')
    :
    builtIn.extract screening (tag.text ++ (before ++ frame.wrap content)) =
      builtIn.extract screening (tag.text ++ (before ++ frame.wrap content')) := by
  obtain ⟨rest, trail, prepared⟩ := working_opener opener leads
  obtain ⟨tail, only, left⟩ := prepared content holds absent
  obtain ⟨tail', only', left'⟩ := prepared content' holds' absent'
  have named : '<' ∉ canonical := opener.canonicalName.unmarked (by decide)
  have settled := OpeningTag.settles_append (trail.settles_name opener.canonicalName) before
  have lone : Lone ('<' :: (canonical ++ rest ++ before)) :=
    .inr ⟨_, rfl, by simp [named, trail.tags, leads.prose.tags], settled⟩
  have unmarked : ∀ t, Ends t → '<' ∉ t := by
    intro t only inside
    have no : ¬ ('<' = '/' ∨ '<' = '>') := by decide
    exact no (only '<' inside)
  have whole : ∀ t, '<' :: (canonical ++ (rest ++ (before ++ t))) =
    '<' :: (canonical ++ rest ++ before) ++ t := by
    intro t
    simp
  obtain ⟨actions, reads⟩ := readWorking_lone screening lone
  rw [extract, extract, left, left', whole, whole, reads tail (unmarked tail only),
    reads tail' (unmarked tail' only')]

/-- An edit that is left open before a fence does not end in it, and the command after that is not
run. -/
theorem extract_opened_edit :
    builtIn.extract {} ((OpeningTag.mk "Edit".toList " path=\"a\"".toList).text ++
        ("\nSee\n".toList ++ Frame.codeBlock.wrap "</edit>\n<bash>ls</bash>".toList)) =
      builtIn.extract {} ((OpeningTag.mk "Edit".toList " path=\"a\"".toList).text ++
        ("\nSee\n".toList ++ Frame.codeBlock.wrap "x".toList)) := by
  refine @extract_opened ⟨"Edit".toList, " path=\"a\"".toList⟩ "edit".toList "\nSee\n".toList _ _
    .codeBlock {} ⟨by decide, by decide +kernel, by decide, by decide, ?_⟩
    ⟨⟨by decide, by decide, by decide⟩, fun _ => by decide⟩ (by decide +kernel) (by decide +kernel)
    (fun literal => ?_) fun literal => ?_
  · intro free
    have guarded : builtIn.table.guardedMatcher.mode? "edit".toList = some .content := by decide
    rw [guarded] at free
    cases free
  · cases literal
  · cases literal

/-- Whether what is framed behind an open tag never matters, for some tags and frames. -/
def Indifferent (among : OpeningTag → Frame → Prop) : Prop :=
  ∀ (screening : Screening) (tag : OpeningTag) (canonical before content content' : Text)
    (frame : Frame),
    OpeningTag.read? tag.text = some tag → builtIn.table.canonical? tag.name = some canonical →
    tag.closesItself = false → among tag frame → Leads frame before → frame.Holds content →
    frame.Holds content' →
    builtIn.extract screening (tag.text ++ (before ++ frame.wrap content)) =
      builtIn.extract screening (tag.text ++ (before ++ frame.wrap content'))

/-- It does matter: to a message in front of a literal block that closes it; and for spans and
fences if a backtick, a tag or a fence stands in the attributes. -/
theorem opened_matters :
    ¬ Indifferent (fun _ _ => True) ∧
    ¬ Indifferent (fun tag frame => frame = .literal ∧ tag.attributes = []) ∧
    ¬ Indifferent (fun tag frame =>
      frame = .codeSpan ∧ '<' ∉ tag.attributes ∧ '~' ∉ tag.attributes) ∧
    ¬ Indifferent (fun tag frame =>
      frame = .codeSpan ∧ tick ∉ tag.attributes ∧ '~' ∉ tag.attributes) ∧
    ¬ Indifferent (fun tag frame =>
      frame = .codeBlock ∧ '<' ∉ tag.attributes ∧ tick ∉ tag.attributes) := by
  have literal : ¬ Indifferent (fun tag frame => frame = .literal ∧ tag.attributes = []) := by
    intro always
    have same := always {} ⟨"say".toList, []⟩ "say".toList [] "</say><ls/>".toList "x".toList
      .literal (by decide) (by decide +kernel) (by decide) ⟨rfl, rfl⟩
      ⟨⟨by decide, by decide, by decide⟩, by decide⟩ (by decide) (by decide)
    revert same
    decide +kernel
  refine ⟨fun always => literal ?_, literal, fun always => ?_, fun always => ?_, fun always => ?_⟩
  · exact fun screening tag canonical before content content' frame read known stays _ =>
      always screening tag canonical before content content' frame read known stays trivial
  · have same := always {} ⟨"plan".toList, " x=\"\x60\"".toList⟩ "plan".toList [] "<ls/>".toList
      "x".toList .codeSpan (by decide) (by decide +kernel) (by decide)
      ⟨rfl, by decide, by decide⟩ ⟨⟨by decide, by decide, by decide⟩, by decide⟩ (by decide)
      (by decide)
    revert same
    decide +kernel
  · have same := always {} ⟨"say".toList, " x=\"<search\"".toList⟩ "say".toList []
      "\"><ls/>".toList "x".toList .codeSpan (by decide) (by decide +kernel) (by decide)
      ⟨rfl, by decide, by decide⟩ ⟨⟨by decide, by decide, by decide⟩, by decide⟩ (by decide)
      (by decide)
    revert same
    decide +kernel
  · have same := always {} ⟨"plan".toList, " x=\"\n~~~\n\"".toList⟩ "plan".toList "\n".toList
      "~~~\n<ls/>".toList "x".toList .codeBlock (by decide) (by decide +kernel) (by decide)
      ⟨rfl, by decide, by decide⟩ ⟨⟨by decide, by decide, by decide⟩, fun _ => by decide⟩
      (by decide +kernel) (by decide +kernel)
    revert same
    decide +kernel

end Registry

end MarkupActions
