import MarkupActions.Proofs.Kinds
import MarkupActions.Proofs.Mending
import MarkupActions.Proofs.Payloads
import MarkupActions.Proofs.Reading
import MarkupActions.Proofs.Stripping

/-!
# A payload speaks only for its own family

A closed block of a file or a message comes through mending, renaming and stripping as it was
written, and is then cut out of what all other families read. Its payload may hold tags, fences,
quotes and hunks of every kind; none of them creates, hides or changes an action of another family.
-/

namespace MarkupActions.Registry

open Payload

theorem known_tag : ∀ tag ∈ payloadTags, builtIn.table.canonical? tag = some tag ∧
    builtIn.table.isContent tag = true ∧
      builtIn.table.anySpellingMatcher.mode? tag = some .content ∧
    builtIn.table.contentMatcher.mode? tag = some .content ∧
      builtIn.table.guardedMatcher.mode? tag = some .content := by
  decide +kernel

theorem spellings_tag : ∀ family ∈ Family.builtIn, ∀ tag ∈ payloadTags, family.owns tag = true →
    tag ∈ family.spellings ∧ (∀ name ∈ family.spellings, Repair.fits name = true) ∧
    (∀ entry ∈ builtIn.table.entries, entry.2 = tag → entry.1 ∈ family.spellings) ∧
    ∀ name ∈ family.spellings, name.isPrefixOf tag = true → name = tag := by
  decide +kernel

theorem repairs_tag : ∀ family ∈ Family.builtIn, ∀ tag ∈ payloadTags, family.owns tag = true →
    ∀ repair ∈ family.repairs, repair.endsClosing = true ∧
      ∀ name ∈ repair.sought, name ∈ family.spellings := by
  decide

variable {family : Family} {tag path payload before after : Text}

theorem spellings_plain (member : family ∈ Family.builtIn) (listed : tag ∈ payloadTags)
    (own : family.owns tag = true) :
    ∀ name ∈ family.spellings, Text.IsPlain name :=
  fun name known => Repair.isPlain_of_fits
    ((spellings_tag family member tag listed own).2.1 name known)

/-- The families of other tags do not touch the block, and the family of its own tag finds nothing
to mend in it. -/
theorem mendWith_fileBlock (member : family ∈ Family.builtIn) (listed : tag ∈ payloadTags)
    (own : family.owns tag = true) (prose : Prose before) (quotable : PlainPath path)
    (block : Sealed family.spellings tag payload after) {other : Family}
    (among : other ∈ Family.builtIn) (s : Text) :
    mendWith builtIn.table (before ++ ((fileBlock tag path payload).text ++ s)) other =
      before ++ ((fileBlock tag path payload).text ++ mendWith builtIn.table s other) := by
  obtain ⟨known, fits, _, only⟩ := spellings_tag family member tag listed own
  have found := blockAt?_fileBlock (known_tag tag listed).2.2.1 listed quotable
    (spellings_plain member listed own) known
    block s
  refine mendWith_block (Repair.builtIn_mendsTags other among) prose.tags found fun touched repair
    inside t => ?_
  have owned : other.owns tag = true := by
    have name := @name_fileBlock tag path payload listed
    have closed : (fileBlock tag path payload).isClosed = true := rfl
    simpa [foreign, name, closed, (known_tag tag listed).1] using touched
  obtain rfl := Family.builtIn_apart other among family member tag owned own
  obtain ⟨closes, sought⟩ := repairs_tag other member tag listed own repair inside
  exact apply_fileBlock closes (Repair.builtIn_mendsTags other member repair inside)
    (fun name inner before => only name (sought name inner) (List.isPrefixOf_iff_prefix.mpr before))
      listed quotable
    (closesNowhere_mono sought block.never) block.rows t

/-- The block is left to be read as it was written, and what follows it does not depend on it. -/
theorem working_fileBlock (member : family ∈ Family.builtIn) (listed : tag ∈ payloadTags)
    (own : family.owns tag = true) (prose : Prose before) (quotable : PlainPath path)
    (block : Sealed family.spellings tag payload after) :
    builtIn.working (before ++ ((fileBlock tag path payload).text ++ after)) =
      before ++ ((fileBlock tag path payload).text ++
        Inert.strip builtIn.table.guardedMatcher false
          (builtIn.normalize (builtIn.mend after))) := by
  obtain ⟨known, _, entries, _⟩ := spellings_tag family member tag listed own
  obtain ⟨canonical, content, _, _, guarded⟩ := known_tag tag listed
  have plain := spellings_plain member listed own
  have names : ∀ name, builtIn.table.canonical? name = some tag →
    Text.lower name ∈ family.spellings := by
    intro name found
    exact entries (Text.lower name, tag) (SpellingTable.mem_of_canonical? found) rfl
  have mended : builtIn.mend (before ++ ((fileBlock tag path payload).text ++ after)) =
      before ++ ((fileBlock tag path payload).text ++ builtIn.mend after) := by
    have all := @foldl_mendWith builtIn.table builtIn.families
      (before ++ (fileBlock tag path payload).text)
      (fun other among s => by
        rw [List.append_assoc, List.append_assoc,
          mendWith_fileBlock member listed own prose quotable block among]) after
    simpa [mend] using all
  have calm : Code.Calm ((fileBlock tag path payload).text ++
    builtIn.table.rename (builtIn.mend after)) :=
    Code.calm_cons (by decide) _
  rw [working, mended, normalize, SpellingTable.rename_prose prose.tags,
    rename_fileBlock canonical content names listed quotable plain block,
      Inert.strip_prose prose (.inr (Code.fenceLength?_of_calm calm)),
    Inert.strip_block (regionLength?_fileBlock listed _)
      (blockAt?_fileBlock guarded listed quotable plain known block _)]
  rfl

theorem layout_fileBlock (member : family ∈ Family.builtIn) (listed : tag ∈ payloadTags)
    (own : family.owns tag = true) (prose : Prose before) (quotable : PlainPath path)
    (block : Sealed family.spellings tag payload after) (s : Text) :
    builtIn.table.contentMatcher.layout (before ++ ((fileBlock tag path payload).text ++ s)) =
      .next before (fileBlock tag path payload) (builtIn.table.contentMatcher.layout s) := by
  have known := (spellings_tag family member tag listed own).1
  have found := blockAt?_fileBlock (known_tag tag listed).2.2.2.1 listed quotable
    (spellings_plain member listed own) known
    block s
  rw [Matcher.layout_prose prose.tags, Matcher.layout_block found, Layout.prepend_next,
    List.append_nil]

/-- What other families read off a layout in which a block of their neighbour comes first. -/
def foundByOthers (screening : Screening) (tag before : Text) (rest : Layout Block)
    (keep : Action → Bool) :
    List Action :=
  builtIn.contentFamilies.flatMap (fun other =>
      if other.owns tag then []
      else (other.extract screening (before ++ view rest other)).filter keep) ++
    (readInTurn screening builtIn.structuralFamilies (before ++ rest.gaps)).filter keep

theorem filter_readWorking (screening : Screening) (member : family ∈ Family.builtIn)
    (own : family.owns tag = true)
    {s : Text} {block : Block} {rest : Layout Block} (name : block.name = tag)
    (cut : builtIn.table.contentMatcher.layout s = .next before block rest) :
    (builtIn.readWorking screening s).filter (fun action => !family.yields action.kind) =
      foundByOthers screening tag before rest fun action => !family.yields action.kind := by
  have structural : builtIn.table.contentMatcher.removeBlocks s = before ++ rest.gaps := by
    simp [Matcher.removeBlocks, cut, Layout.gaps, Layout.text]
  rw [readWorking_eq content_keeps, structural, cut, List.filter_append, List.filter_flatMap,
    foundByOthers]
  congr 1
  refine List.flatMap_congr fun other inside => ?_
  have among : other ∈ Family.builtIn := (List.mem_filter.mp inside).1
  cases owned : other.owns tag with
  | true =>
    obtain rfl := Family.builtIn_apart other among family member tag owned own
    simp only [if_true, List.filter_eq_nil_iff]
    intro action found
    simp [Family.builtIn_yields among found]
  | false =>
    have left : view (.next before block rest) other = before ++ view rest other := by
      simp [view, Layout.select, name, owned, Layout.gaps, Layout.text]
    simp [left]

/-- What stands in a payload is of no consequence to the actions of other families. -/
theorem extract_payload (screening : Screening) (member : family ∈ Family.builtIn)
    (listed : tag ∈ payloadTags)
    (own : family.owns tag = true) (prose : Prose before) (quotable : PlainPath path)
    {payload' : Text}
    (first : Sealed family.spellings tag payload after)
    (second : Sealed family.spellings tag payload' after) :
    (builtIn.extract screening (before ++ ((fileBlock tag path payload).text ++ after))).filter
        (fun action => !family.yields action.kind) =
      (builtIn.extract screening (before ++ ((fileBlock tag path payload').text ++ after))).filter
        (fun action => !family.yields action.kind) := by
  have read : ∀ payload, Sealed family.spellings tag payload after →
      (builtIn.extract screening (before ++ ((fileBlock tag path payload).text ++ after))).filter
          (fun action => !family.yields action.kind) =
        foundByOthers screening tag before (builtIn.table.contentMatcher.layout
          (Inert.strip builtIn.table.guardedMatcher false (builtIn.normalize (builtIn.mend after))))
          fun action => !family.yields action.kind := by
    intro payload block
    rw [extract, working_fileBlock member listed own prose quotable block]
    exact filter_readWorking screening member own (name_fileBlock listed)
      (layout_fileBlock member listed own prose quotable block _)
  rw [read payload first, read payload' second]

/-- What a message holds is nothing to the reading that is asked for after it. -/
theorem extract_message :
    (builtIn.extract {} ("Hello ".toList ++
      ((fileBlock "say".toList "a".toList "<ls/>\n".toList).text ++
        "<read path=\"b\"/>".toList))).filter (fun action => !Family.say.yields action.kind) =
      (builtIn.extract {} ("Hello ".toList ++
        ((fileBlock "say".toList "a".toList "x\n".toList).text ++
        "<read path=\"b\"/>".toList))).filter (fun action => !Family.say.yields action.kind) :=
  extract_payload {} (by simp [Family.builtIn]) (by decide) (by decide)
    ⟨by decide, by decide, by decide⟩ ⟨by decide, by decide, by decide, by decide⟩
    ⟨by decide, by decide, by decide +kernel⟩ ⟨by decide, by decide, by decide +kernel⟩

end MarkupActions.Registry
