import MarkupActions.CommandLine.Session
import MarkupActions.Proofs.Aliases
import MarkupActions.Proofs.ReadAlike
import MarkupActions.Proofs.ReadAround
import MarkupActions.Proofs.Silencing

/-!
# Turning families off

A family that is off takes its spellings, its repairs and its part in cutting the text with it, and
what its blocks held is then read by others. Where its blocks and those of the families that are
still on keep apart, none of that comes to bear, and the actions that remain are those of the
families that are on, in the same order. No claim is made that a family may be turned off without
looking at the text.
-/

namespace MarkupActions

open Code (tick)
open Registry (builtIn those)

namespace Registry

variable {keep : Family → Bool} {s t : Text}

theorem settled_those : (those keep).table.Settled :=
  SpellingTable.settled_of_sublist List.filter_sublist

/-- Literal blocks are no family's. -/
theorem canonical?_literal : (those keep).table.canonical? Inert.literalName = none := by
  cases known : (those keep).table.canonical? Inert.literalName with
  | none => rfl
  | some tag =>
    have stands : builtIn.table.canonical? Inert.literalName = some tag :=
      SpellingTable.canonical?_of_filter SpellingTable.agree_builtIn known
    have none : builtIn.table.canonical? Inert.literalName = none := by decide +kernel
    rw [none] at stands
    cases stands

/-- The names of the families that are on are foreign to those that are off. -/
theorem foreign_of_narrows {m m' : Matcher} (narrows : Matcher.Narrows (those keep).table m m') :
    m'.Foreign (those (!keep ·)).table where
  plain := fun _ _ known => narrows.plain' known
  unknown := by
    intro name mode known
    obtain ⟨tag, found⟩ := Option.isSome_iff_exists.mp (narrows.knows known).1
    exact SpellingTable.canonical?_apart found

/-- Whether the blocks of families stand in two texts as they are, each family reading what those
before it have left of either text. -/
inductive KeepsInTurn (table : SpellingTable) : List Family → Text → Text → Prop
  | nil (s t : Text) : KeepsInTurn table [] s t
  | cons {family : Family} {families : List Family} {s t : Text}
      (keeps : family.matcher.Keeps table s t)
      (later : KeepsInTurn table families (family.retire s) (family.retire t)) :
      KeepsInTurn table (family :: families) s t

/-- Whether no block that one of the families reads is left open or names a tag of the table. -/
def silentInTurn (table : SpellingTable) : List Family → Text → Bool
  | [], _ => true
  | family :: families, s =>
    (family.matcher.blocks s).all (fun block =>
      table.silent block.text && block.extent != .unclosed) &&
        silentInTurn table families (family.retire s)

theorem keepsInTurn_of_silent {table : SpellingTable} {families : List Family}
    (silent : silentInTurn table families s = true) : KeepsInTurn table families s t := by
  induction families generalizing s t with
  | nil => exact .nil s t
  | cons family families ih =>
    obtain ⟨here, later⟩ := Bool.and_eq_true_iff.mp silent
    refine .cons (Matcher.keeps_of_silent fun block inside => ?_) (ih later)
    simpa using List.all_eq_true.mp here block inside

/-- Whether the blocks that the families read which are on stand in two texts as they are, although
the names of the others are spelled differently in these. -/
structure ReadsAlike (keep : Family → Bool) (s t : Text) : Prop where
  content : (those keep).table.contentMatcher.Keeps (those (!keep ·)).table s t
  own : ∀ family ∈ (those keep).contentFamilies, family.matcher.Keeps (those (!keep ·)).table
    (view ((those keep).table.contentMatcher.layout s) family)
    (view ((those keep).table.contentMatcher.layout t) family)
  structural : KeepsInTurn (those (!keep ·)).table (those keep).structuralFamilies
    ((those keep).table.contentMatcher.removeBlocks s)
    ((those keep).table.contentMatcher.removeBlocks t)

theorem readInTurn_alike {screening : Screening} {families : List Family}
    (listed : ∀ family ∈ families, Listed keep family)
    (respelt : Respelt (those (!keep ·)).table s t)
    (keeps : KeepsInTurn (those (!keep ·)).table families s t) :
    readInTurn screening families s = readInTurn screening families t := by
  induction keeps with
  | nil => rfl
  | @cons family families s t keeps _ ih =>
    obtain ⟨⟨member, kept, retires⟩, later⟩ := List.forall_mem_cons.mp listed
    have alike := Matcher.layout_alike settled_those
      (foreign_of_narrows (Family.narrows_matcher member kept)) respelt keeps
    have left : Respelt (those (!keep ·)).table (family.retire s) (family.retire t) := by
      rcases retires with none | rfl
      · rwa [Family.retire_of_nil none, Family.retire_of_nil none]
      · rw [Family.retire_plan]
        exact alike.text
    rw [readInTurn, readInTurn, Family.extract_congr member alike.parts_eq.symm, ih later left]

/-- The families that are on find the same in both texts. -/
theorem readWorking_alike (screening : Screening) (respelt : Respelt (those (!keep ·)).table s t)
    (alike : ReadsAlike keep s t) :
    (those keep).readWorking screening s = (those keep).readWorking screening t := by
  obtain ⟨content, own, structural⟩ := alike
  have cut := Matcher.layout_alike settled_those
    (foreign_of_narrows SpellingTable.narrows_content) respelt content
  rw [readWorking_eq content_keeps_those, readWorking_eq content_keeps_those]
  congr 1
  · refine flatMap_extract fun family inside => ?_
    obtain ⟨member, kept, _⟩ := listed_content inside
    have seen : Respelt (those (!keep ·)).table
        (view ((those keep).table.contentMatcher.layout s) family)
        (view ((those keep).table.contentMatcher.layout t) family) := cut.select.text
    have alike := Matcher.layout_alike settled_those
      (foreign_of_narrows (Family.narrows_matcher member kept)) seen (own family inside)
    exact ⟨member, alike.parts_eq.symm⟩
  · exact readInTurn_alike (fun family inside => listed_structural inside) cut.text structural

/-- A prepared text cut at the blocks that are copied into it of the families that are off. -/
def parted (keep : Family → Bool) (text : Text) : Layout Block :=
  Inert.parted (those keep).table builtIn.table.guardedMatcher true
    (builtIn.normalize (builtIn.mend text))

/-- A block that is copied no longer, without the code and the literal blocks in it. -/
def stripped (keep : Family → Bool) (block : Block) : Text :=
  Inert.strip (those keep).table.guardedMatcher false block.text

def bears (block : Block) : Bool := (builtIn.table.contentMatcher.mode? block.name).isSome

/-- What the families that read outside of the content see of a block. -/
def residue (block : Block) : Text := if bears block then [] else block.text

/-- Whether the families that are off and those that are on keep apart in a text, in each pass over
it. What a pass sees of the blocks of those that are off names no tag of the others, and the blocks
of the others stand where they stand without them. -/
structure KeepsApart (keep : Family → Bool) (text : Text) : Prop where
  mended : Unmended keep Family.builtIn text
  named : NamesApart keep (builtIn.mend text)
  alone : ∀ block ∈ (parted keep text).parts,
    Inert.StripsAlone (those keep).table.guardedMatcher block.text
  copied : ∀ part ∈ Inert.copied (those keep).table.guardedMatcher true
    ((those keep).normalize ((those keep).mend text)),
    part.1.Fixed (those (!keep ·)).table (builtIn.normalize (builtIn.mend text)) part.2
  spelled : ReadsAlike keep ((those keep).working text) ((parted keep text).text (stripped keep))
  idle : ∀ block ∈ (parted keep text).parts,
    Idle keep (stripped keep block) ∧ Idle keep (residue block)
  around : WorksAround keep (parted keep text)
  bound : ((parted keep text).select bears Block.text).Bound builtIn.table.contentMatcher
  read : ReadApart keep ((parted keep text).text residue)

/-- Where the families that are off and those that are on keep apart, those that are on find what
they find with all families. -/
theorem extract_those (screening : Screening) {text : Text} (apart : KeepsApart keep text) :
    (those keep).extract screening text =
      (builtIn.extract screening text).filter (yieldedBy (Family.builtIn.filter keep)) := by
  obtain ⟨mended, named, alone, copied, spelled, idle, around, bound, read⟩ := apart
  have strip : Inert.strip (those keep).table.guardedMatcher true
      (builtIn.normalize (builtIn.mend text)) = (parted keep text).text (stripped keep) :=
    Inert.strip_parted SpellingTable.narrows_guarded alone
  have respelt : Respelt (those (!keep ·)).table ((those keep).working text)
      ((parted keep text).text (stripped keep)) := by
    rw [mend_those mended] at copied
    rw [← strip, working, mend_those mended]
    exact Inert.strip_respelt settled_those canonical?_literal
      (foreign_of_narrows SpellingTable.narrows_guarded) (respelt_normalize named) copied
  have off : ∀ block ∈ ((parted keep text).select bears Block.text).parts,
      isOff keep block = true := by
    intro block inside
    rw [isOff, Inert.unknown_of_parted (Layout.mem_parts_select.mp inside).1, Bool.not_false]
  have whole : ((parted keep text).select bears Block.text).text Block.text =
      builtIn.working text :=
    (Layout.text_select _ _).trans (Inert.text_parted _ _ _ _)
  have bare : ((parted keep text).select bears Block.text).gaps =
      (parted keep text).text residue := Layout.gaps_select _ _
  calc
    (those keep).readWorking screening ((those keep).working text) =
        (those keep).readWorking screening ((parted keep text).text (stripped keep)) :=
      readWorking_alike screening respelt spelled
    _ = (those keep).readWorking screening ((parted keep text).text residue) :=
      readWorking_around screening idle around
    _ = (builtIn.readWorking screening ((parted keep text).text residue)).filter
          (yieldedBy (Family.builtIn.filter keep)) :=
      readWorking_those screening read
    _ = (builtIn.readWorking screening (builtIn.working text)).filter
          (yieldedBy (Family.builtIn.filter keep)) := by
      have same := readWorking_bound screening off bound
      rw [whole, bare] at same
      exact same.symm

end Registry

namespace ParserSettings

open CommandLine (actionsOf)

def allOn (settings : ParserSettings) : ParserSettings := { settings with disabledTags := [] }

def keeps (settings : ParserSettings) (family : Family) : Bool := !settings.lists family

/-- Whether a family that is still on yields such actions. -/
def permits (settings : ParserSettings) (action : Action) : Bool :=
  Registry.yieldedBy settings.registry.families action

theorem registry_keeps (settings : ParserSettings) :
    settings.registry = Registry.those settings.keeps :=
  registry_eq settings

theorem registry_allOn (settings : ParserSettings) :
    settings.allOn.registry = Registry.builtIn := by
  have all : Family.builtIn.filter (fun _ => !false) = Family.builtIn :=
    List.filter_eq_self.mpr fun _ _ => rfl
  exact congrArg Registry.ofFamilies all

/-- What a family that is off took part in shows in each pass. A tag of its own in a command is
neither completed nor renamed, code in a command is stripped and a tag joined, a message stays in a
command, and what a plan held is read. -/
theorem each_pass_matters :
    ∀ sample ∈ [("list", "<bash>ls <list path=\"a\"\n</bash>"),
        ("list", "<bash>echo <ls/></bash>"), ("bash", "<bash><li\x60x\x60st/></bash>"),
        ("say", "<bash>a<say>x</say>b</bash>"), ("plan", "<plan><step>a</step><list/></plan>")],
      ¬ (actionsOf ⟨[sample.1], {}⟩ sample.2.toList).Sublist
        (actionsOf ⟨[], {}⟩ sample.2.toList) := by
  decide +kernel

end ParserSettings

end MarkupActions
