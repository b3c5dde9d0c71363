import MarkupActions.Proofs.Bystanders
import MarkupActions.Proofs.Spacing

/-!
# Reading with fewer families

The families that are on read around what the others have left in a text, and find what they find
with all families. What they read around is idle: it names no tag of theirs. The content of the
others may be anything, since it is cut out where they are on.
-/

namespace MarkupActions

open OpeningTag (unbroken)
open Registry (builtIn those view)

namespace Family

theorem plan_matcher : Family.plan.matcher = .of .structural Family.plan.retired := rfl

theorem retire_plan : Family.plan.retire = Family.plan.matcher.removeBlocks := by
  rw [plan_matcher]
  rfl

/-- A family that is there finds its own blocks by names that the table knows. -/
theorem narrows_matcher {keep : Family → Bool} {family : Family} (member : family ∈ Family.builtIn)
    (kept : keep family = true) :
    Matcher.Narrows (those keep).table family.matcher family.matcher where
  plain := by
    intro name mode known
    rw [Family.matcher, Matcher.mode?_of, Family.lower_canonicalTags member] at known
    split at known
    · rename_i own
      exact SpellingTable.plain_own member own
    · cases known
  mode := by
    intro name
    rw [Family.matcher, Matcher.mode?_of, Family.lower_canonicalTags member]
    by_cases own : name ∈ family.canonicalTags
    · rw [SpellingTable.knows_own keep member own, kept, if_pos rfl]
    · rw [if_neg own, ite_self]

/-- A family finds the same in texts in which it finds the same blocks. -/
theorem extract_congr {family : Family} (member : family ∈ Family.builtIn) {s t : Text}
    (same : family.matcher.blocks s = family.matcher.blocks t) (screening : Screening) :
    family.extract screening s = family.extract screening t := by
  obtain ⟨actions, reads, _⟩ := builtIn_readsOwn member
  rw [reads, reads, same]

end Family

namespace Registry

variable {keep : Family → Bool} {family : Family} {s : Text}

/-- Whether some family of a list yields actions of this kind. -/
def yieldedBy (families : List Family) (action : Action) : Bool :=
  families.any (·.yields action.kind)

/-- A family that is on yields what is its own, and no other does for one that is off. -/
theorem yieldedBy_filter (member : family ∈ Family.builtIn) {action : Action}
    (own : family.yields action.kind = true) :
    yieldedBy (Family.builtIn.filter keep) action = keep family := by
  cases kept : keep family with
  | true =>
    rw [yieldedBy, List.any_eq_true]
    exact ⟨family, List.mem_filter.mpr ⟨member, kept⟩, own⟩
  | false =>
    rw [yieldedBy, List.any_eq_false]
    intro other inside owned
    obtain ⟨listed, keptToo⟩ := List.mem_filter.mp inside
    have same := Family.builtIn_apart other listed family member _ owned own
    rw [same, kept] at keptToo
    cases keptToo

/-- What a family finds in a text stays or goes with it. -/
theorem filter_extract (member : family ∈ Family.builtIn) (screening : Screening) (s : Text) :
    (family.extract screening s).filter (yieldedBy (Family.builtIn.filter keep)) =
      if keep family then family.extract screening s else [] := by
  have same : ∀ action ∈ family.extract screening s,
      yieldedBy (Family.builtIn.filter keep) action = keep family := fun action found =>
    yieldedBy_filter member (Family.builtIn_yields member found)
  cases kept : keep family with
  | true =>
    simpa [kept] using List.filter_eq_self.mpr (fun action found => (same action found).trans kept)
  | false =>
    simp only [Bool.false_eq_true, if_false, List.filter_eq_nil_iff]
    intro action found
    rw [same action found, kept]
    simp

/-- Of what families find in their views, that is left which those find that are on. -/
theorem filter_flatMap_extract {screening : Screening} {families : List Family}
    (listed : ∀ family ∈ families, family ∈ Family.builtIn) (see : Family → Text) :
    (families.flatMap fun family => family.extract screening (see family)).filter
        (yieldedBy (Family.builtIn.filter keep)) =
      (families.filter keep).flatMap fun family => family.extract screening (see family) := by
  induction families with
  | nil => rfl
  | cons family families ih =>
    have rest := ih fun f inside => listed f (List.mem_cons_of_mem _ inside)
    rw [List.flatMap_cons, List.filter_append, filter_extract (listed family List.mem_cons_self),
      rest]
    cases kept : keep family with
    | true => simp [kept]
    | false => simp [kept]

/-- Whether a text names no tag of the families that are on, and no tag breaks off in it. -/
structure Idle (keep : Family → Bool) (v : Text) : Prop where
  silent : (those keep).table.silent v = true
  whole : unbroken v = true

instance (keep : Family → Bool) (v : Text) : Decidable (Idle keep v) :=
  decidable_of_iff (_ ∧ _) ⟨fun both => ⟨both.1, both.2⟩, fun idle => ⟨idle.silent, idle.whole⟩⟩

namespace Idle

variable {v name : Text}

theorem nil : Idle keep [] := ⟨rfl, rfl⟩

/-- No block of the families that are on is closed in it. -/
theorem firstEnd? (idle : Idle keep v) (known : (those keep).table.knows name = true) :
    ClosingTag.firstEnd? name v = none := by
  obtain ⟨tag, found⟩ := Option.isSome_iff_exists.mp known
  have stands : builtIn.table.canonical? name = some tag :=
    SpellingTable.canonical?_of_filter SpellingTable.agree_builtIn found
  rw [ClosingTag.firstEnd?_eq_none]
  intro front tail whole
  cases closes : ClosingTag.length? name tail with
  | none => rfl
  | some n =>
    obtain ⟨front', blanks, rest, rfl, spelled, blank, _⟩ := ClosingTag.length?_eq_some.mp closes
    obtain ⟨a, inner, rfl, bracket, spelled'⟩ := List.map_eq_cons_iff.mp spelled
    obtain ⟨b, letters, rfl, slash, lower⟩ := List.map_eq_cons_iff.mp spelled'
    obtain rfl := Text.eq_of_toLower_eq (by decide) bracket
    obtain rfl := Text.eq_of_toLower_eq (by decide) slash
    have named : TagName letters := by
      have named : TagName name := (SpellingTable.tagName_of_known stands).1
      rw [TagName, show Text.lower letters = name from lower]
      rwa [TagName, ← lower, show List.map Char.toLower letters = Text.lower letters from rfl,
        Text.lower_lower, show Text.lower letters = name from lower] at named
    have read : TagToken.read? ('<' :: '/' :: letters ++ (blanks ++ '>' :: rest)) =
        some ⟨true, letters⟩ :=
      @TagToken.read?_text ⟨true, letters⟩ named.isName _
        (SpellingTable.not_isNameChar_closing blank)
    have quiet := SpellingTable.silent_read
      (SpellingTable.silent_suffix (whole ▸ idle.silent)) read
    rw [← lower] at known
    have same := SpellingTable.canonical?_lower (those keep).table letters
    rw [SpellingTable.knows, show List.map Char.toLower letters = Text.lower letters from rfl, same,
      quiet] at known
    cases known

end Idle

theorem readInTurn_keeps {screening : Screening} {families : List Family}
    (keeps : ∀ family ∈ families, family.retired = []) (s : Text) :
    readInTurn screening families s = families.flatMap (·.extract screening s) := by
  induction families with
  | nil => rfl
  | cons family families ih =>
    rw [readInTurn, Family.retire_of_nil (keeps family List.mem_cons_self),
      ih fun other inside => keeps other (List.mem_cons_of_mem _ inside), List.flatMap_cons]

theorem flatMap_extract {screening : Screening} {families : List Family} {s t : Family → Text}
    (same : ∀ family ∈ families, family ∈ Family.builtIn ∧
      family.matcher.blocks (s family) = family.matcher.blocks (t family)) :
    families.flatMap (fun family => family.extract screening (s family)) =
      families.flatMap fun family => family.extract screening (t family) := by
  refine List.flatMap_congr fun family inside => ?_
  obtain ⟨member, blocks⟩ := same family inside
  exact Family.extract_congr member blocks screening

/-- Families that are on pass over what is idle. -/
theorem Idle.skips {m m' : Matcher} (narrows : Matcher.Narrows (those keep).table m m') {v : Text}
    (idle : Idle keep v) : m'.Skips v :=
  ⟨OpeningTag.untorn_of_unbroken idle.whole, narrows.blocks_silent idle.silent,
    fun _ _ known => idle.firstEnd? (narrows.knows known).1⟩

variable {screening : Screening} {families : List Family} {l : Layout Block}
  {write write' : Block → Text}

/-- Whether families read around the parts of a text, each family what those before it have left.
-/
inductive ReadAround : List Family → Layout Block → Prop
  | nil (l : Layout Block) : ReadAround [] l
  | cons {family : Family} {families : List Family} {l : Layout Block}
      (spaced : l.Spaced family.matcher) (later : ReadAround families (l.mapGaps family.retire)) :
      ReadAround (family :: families) l

/-- Whether no code is marked up in any block that one of the families reads before the last part.
-/
def uncodedAround : List Family → Layout Block → Bool
  | [], _ => true
  | family :: families, l =>
    l.uncoded family.matcher && uncodedAround families (l.mapGaps family.retire)

theorem readAround_of_uncoded (uncoded : uncodedAround families l = true) :
    ReadAround families l := by
  induction families generalizing l with
  | nil => exact .nil l
  | cons family families ih =>
    obtain ⟨here, later⟩ := Bool.and_eq_true_iff.mp uncoded
    exact .cons (Layout.spaced_of_uncoded here) (ih later)

/-- Whether a family is on and takes nothing away but plans. -/
def Listed (keep : Family → Bool) (family : Family) : Prop :=
  family ∈ Family.builtIn ∧ keep family = true ∧ (family.retired = [] ∨ family = Family.plan)

theorem content_builtIn : ∀ family ∈ builtIn.contentFamilies, family ∈ Family.builtIn :=
  fun _ inside => (List.mem_filter.mp inside).1

theorem content_keeps_those : ∀ family ∈ (those keep).contentFamilies, family.retired = [] := by
  intro family inside
  obtain ⟨listed, bears⟩ := List.mem_filter.mp inside
  exact content_keeps family (List.mem_filter.mpr ⟨(List.mem_filter.mp listed).1, bears⟩)

theorem listed_content (inside : family ∈ (those keep).contentFamilies) : Listed keep family := by
  obtain ⟨member, kept⟩ := List.mem_filter.mp (List.mem_filter.mp inside).1
  exact ⟨member, kept, .inl (content_keeps_those family inside)⟩

theorem listed_structural (inside : family ∈ (those keep).structuralFamilies) :
    Listed keep family := by
  obtain ⟨inside, bears⟩ := List.mem_filter.mp inside
  obtain ⟨member, kept⟩ := List.mem_filter.mp inside
  have there : family ∈ builtIn.structuralFamilies := List.mem_filter.mpr ⟨member, bears⟩
  rw [structural_order, List.mem_cons] at there
  exact ⟨member, kept, there.symm.imp_left (structural_tail_keeps family)⟩

/-- However the parts are written, if only in an idle way, the families find the same. -/
theorem readInTurn_around (listed : ∀ family ∈ families, Listed keep family)
    (idle : ∀ block ∈ l.parts, Idle keep (write block) ∧ Idle keep (write' block))
    (around : ReadAround families l) :
    readInTurn screening families (l.text write) =
      readInTurn screening families (l.text write') := by
  induction around with
  | nil => rfl
  | @cons family families l spaced _ ih =>
    obtain ⟨⟨member, kept, retires⟩, later⟩ := List.forall_mem_cons.mp listed
    have narrows := Family.narrows_matcher member kept
    have skips : ∀ block ∈ l.parts, family.matcher.Skips (write block) ∧
        family.matcher.Skips (write' block) := fun block inside =>
      ⟨(idle block inside).1.skips narrows, (idle block inside).2.skips narrows⟩
    have left : ∀ {write : Block → Text}, (∀ block ∈ l.parts, family.matcher.Skips (write block)) →
        family.retire (l.text write) = (l.mapGaps family.retire).text write := by
      intro write skips
      obtain none | rfl := retires
      · rw [funext (Family.retire_of_nil none), Layout.mapGaps_id]
      · have cut := Matcher.cut_spaced narrows.plain skips spaced fun _ => true
        rwa [Matcher.cut_all, ← Family.retire_plan] at cut
    have same := Matcher.blocks_spaced narrows.plain (fun block inside => (skips block inside).1)
      (fun block inside => (skips block inside).2) spaced
    rw [readInTurn, readInTurn, Family.extract_congr member same,
      left fun block inside => (skips block inside).1,
      left fun block inside => (skips block inside).2]
    refine congrArg _ (ih later ?_)
    rwa [Layout.parts_mapGaps]

/-- Whether families that are on read a text around its parts, first those that bear content, each
in its view of the text, and then the others. -/
structure WorksAround (keep : Family → Bool) (l : Layout Block) : Prop where
  content : l.Spaced (those keep).table.contentMatcher
  own : ∀ family ∈ (those keep).contentFamilies, (l.mapGaps ((those keep).table.contentMatcher.cut
    fun block => !family.owns block.name)).Spaced family.matcher
  structural : ReadAround (those keep).structuralFamilies
    (l.mapGaps (those keep).table.contentMatcher.removeBlocks)

theorem readWorking_around (screening : Screening)
    (idle : ∀ block ∈ l.parts, Idle keep (write block) ∧ Idle keep (write' block))
    (around : WorksAround keep l) :
    (those keep).readWorking screening (l.text write) =
      (those keep).readWorking screening (l.text write') := by
  obtain ⟨content, own, structural⟩ := around
  have narrows := @SpellingTable.narrows_content keep
  have plain : ∀ name mode, (those keep).table.contentMatcher.mode? name = some mode →
      Text.IsPlain name := fun _ _ known => narrows.plain' known
  have cut : ∀ off, (those keep).table.contentMatcher.cut off (l.text write) =
      (l.mapGaps ((those keep).table.contentMatcher.cut off)).text write := fun off =>
    Matcher.cut_spaced plain (fun block inside => (idle block inside).1.skips narrows) content off
  have cut' : ∀ off, (those keep).table.contentMatcher.cut off (l.text write') =
      (l.mapGaps ((those keep).table.contentMatcher.cut off)).text write' := fun off =>
    Matcher.cut_spaced plain (fun block inside => (idle block inside).2.skips narrows) content off
  rw [readWorking_eq content_keeps_those, readWorking_eq content_keeps_those, ← Matcher.cut_all,
    cut, cut', Matcher.cut_all]
  congr 1
  · refine flatMap_extract fun family inside => ?_
    obtain ⟨member, kept, _⟩ := listed_content inside
    have narrows := Family.narrows_matcher member kept
    refine ⟨member, ?_⟩
    change family.matcher.blocks ((those keep).table.contentMatcher.cut _ _) =
      family.matcher.blocks ((those keep).table.contentMatcher.cut _ _)
    rw [cut, cut']
    refine Matcher.blocks_spaced narrows.plain (fun block inside' => ?_) (fun block inside' => ?_)
      (own family inside)
    · rw [Layout.parts_mapGaps] at inside'
      exact (idle block inside').1.skips narrows
    · rw [Layout.parts_mapGaps] at inside'
      exact (idle block inside').2.skips narrows
  · refine readInTurn_around (fun family inside => listed_structural inside) ?_ structural
    rwa [Layout.parts_mapGaps]

def isOff (keep : Family → Bool) (block : Block) : Bool := !(those keep).table.knows block.name

theorem not_isOff_of_owns {block : Block} (member : family ∈ Family.builtIn)
    (kept : keep family = true) (own : family.owns block.name = true) :
    isOff keep block = false := by
  have known := SpellingTable.knows_own keep member (List.contains_iff_mem.mp own)
  rw [SpellingTable.knows, SpellingTable.canonical?_lower] at known
  rw [isOff, SpellingTable.knows, known, kept]
  rfl

/-- A text with the content blocks of the families that are on cut out. Those of the families that
are off are its parts. -/
def withoutContent (keep : Family → Bool) (s : Text) : Layout Block :=
  (builtIn.table.contentMatcher.layout s).around (isOff keep) fun _ => false

/-- Whether a prepared text is read apart from the content blocks and the plans of the families that
are off. These are idle, and the families that are on read around them. -/
structure ReadApart (keep : Family → Bool) (s : Text) : Prop where
  idle : ∀ block ∈ builtIn.table.contentMatcher.blocks s, isOff keep block = true →
    Idle keep block.text
  content : ∀ family ∈ (those keep).contentFamilies,
    ((builtIn.table.contentMatcher.layout s).around (isOff keep)
      fun block => family.owns block.name).Spaced family.matcher
  structural : ReadAround (those keep).structuralFamilies (withoutContent keep s)
  plans : keep Family.plan = false →
    (∀ block ∈ Family.plan.matcher.blocks (withoutContent keep s).gaps, Idle keep block.text) ∧
      ReadAround (those keep).structuralFamilies
        (Family.plan.matcher.layout (withoutContent keep s).gaps)

theorem idle_around {own : Block → Bool}
    (idle : ∀ block ∈ l.parts, isOff keep block = true → Idle keep block.text) :
    ∀ block ∈ (l.around (isOff keep) own).parts, Idle keep block.text ∧ Idle keep [] :=
  fun block inside =>
    ⟨idle block (Layout.mem_parts_around inside).1 (Layout.mem_parts_around inside).2, .nil⟩

/-- The families that are on find outside of the content, and outside of plans, what they find there
with all families. -/
theorem readStructural_those (apart : ReadApart keep s) :
    readInTurn screening (those keep).structuralFamilies ((withoutContent keep s).text Block.text) =
      (readInTurn screening builtIn.structuralFamilies (withoutContent keep s).gaps).filter
        (yieldedBy (Family.builtIn.filter keep)) := by
  have structural : (those keep).structuralFamilies = builtIn.structuralFamilies.filter keep :=
    List.filter_comm _ _ _
  have plan : Family.plan ∈ Family.builtIn := by simp [Family.builtIn]
  have listed : ∀ family ∈ (those keep).structuralFamilies, Listed keep family :=
    fun family inside => listed_structural inside
  have tail : ∀ family ∈ builtIn.structuralFamilies.tail, family ∈ Family.builtIn :=
    fun family inside => (List.mem_filter.mp (List.mem_of_mem_tail inside)).1
  have quiet : ∀ family ∈ builtIn.structuralFamilies.tail.filter keep, family.retired = [] :=
    fun family inside => structural_tail_keeps family (List.mem_filter.mp inside).1
  rw [@readInTurn_around _ _ _ (withoutContent keep s) _ (fun _ => []) listed
    (idle_around apart.idle) apart.structural]
  change readInTurn screening _ (withoutContent keep s).gaps = _
  rw [structural, structural_order, readInTurn, List.filter_append, filter_extract plan,
    readInTurn_keeps structural_tail_keeps, filter_flatMap_extract tail, List.filter_cons]
  cases kept : keep Family.plan with
  | true => rw [if_pos rfl, if_pos rfl, readInTurn, readInTurn_keeps quiet]
  | false =>
    obtain ⟨plans, around⟩ := apart.plans kept
    have within := @readInTurn_around _ screening _ _ Block.text (fun _ => []) listed
      (fun block inside => ⟨plans block inside, .nil⟩) around
    rw [structural, structural_order, List.filter_cons, kept, if_neg (by simp), Matcher.layout_text,
      readInTurn_keeps quiet, readInTurn_keeps quiet] at within
    rw [if_neg (by simp), if_neg (by simp), List.nil_append, readInTurn_keeps quiet, within,
      Family.retire_plan]
    rfl

/-- A prepared text is read without the families that are off as with them, less what is theirs. -/
theorem readWorking_those (screening : Screening) (apart : ReadApart keep s) :
    (those keep).readWorking screening s =
      (builtIn.readWorking screening s).filter (yieldedBy (Family.builtIn.filter keep)) := by
  have content : (those keep).contentFamilies = builtIn.contentFamilies.filter keep :=
    List.filter_comm _ _ _
  have cut : (those keep).table.contentMatcher.layout s =
      (builtIn.table.contentMatcher.layout s).select (fun block => !isOff keep block)
        Block.text := by
    simp only [isOff, Bool.not_not]
    refine SpellingTable.narrows_content.layout_eq fun block inside off => ?_
    have idle := apart.idle block inside (by simp [isOff, off])
    exact ⟨SpellingTable.narrows_content.blocks_silent idle.silent,
      OpeningTag.untorn_of_unbroken idle.whole⟩
  rw [readWorking_eq content_keeps_those, readWorking_eq content_keeps, Matcher.removeBlocks,
    Matcher.removeBlocks, cut, List.filter_append]
  congr 1
  · rw [filter_flatMap_extract content_builtIn, ← content]
    refine flatMap_extract fun family inside => ?_
    obtain ⟨member, kept, _⟩ := listed_content inside
    have narrows := Family.narrows_matcher member kept
    have idle := @idle_around keep _ (fun block => family.owns block.name) apart.idle
    have same := @Matcher.blocks_spaced _ _ Block.text (fun _ => []) narrows.plain
      (fun block inside' => (idle block inside').1.skips narrows)
      (fun block inside' => (idle block inside').2.skips narrows) (apart.content family inside)
    change _ = family.matcher.blocks (Layout.gaps _) at same
    rw [Layout.text_around,
      Layout.gaps_around fun block own => not_isOff_of_owns member kept own] at same
    exact ⟨member, same⟩
  · have text : (withoutContent keep s).text Block.text =
        ((builtIn.table.contentMatcher.layout s).select (fun block => !isOff keep block)
          Block.text).gaps := by
      rw [withoutContent, Layout.text_around]
      exact congrArg Layout.gaps (Layout.select_all _)
    have gaps : (withoutContent keep s).gaps = (builtIn.table.contentMatcher.layout s).gaps := by
      rw [withoutContent, Layout.gaps_around (by simp)]
      exact congrArg Layout.gaps (Layout.select_all _)
    rw [← text, ← gaps]
    exact readStructural_those apart

/-- Content blocks of the others are cut out, whatever they hold, so the families that are on find
without them what they find with them. -/
theorem readWorking_bound (screening : Screening)
    (off : ∀ block ∈ l.parts, isOff keep block = true)
    (bound : l.Bound builtIn.table.contentMatcher) :
    (builtIn.readWorking screening (l.text Block.text)).filter
        (yieldedBy (Family.builtIn.filter keep)) =
      (builtIn.readWorking screening l.gaps).filter (yieldedBy (Family.builtIn.filter keep)) := by
  have plain : ∀ name mode, builtIn.table.contentMatcher.mode? name = some mode →
      Text.IsPlain name := (@SpellingTable.narrows_content keep).plain
  have removed := Matcher.cut_bound plain (fun _ _ => rfl) bound
  rw [Matcher.cut_all] at removed
  rw [readWorking_eq content_keeps, readWorking_eq content_keeps, removed, List.filter_append,
    List.filter_append]
  congr 1
  rw [filter_flatMap_extract content_builtIn, filter_flatMap_extract content_builtIn]
  refine List.flatMap_congr fun family inside => ?_
  obtain ⟨inside, kept⟩ := List.mem_filter.mp inside
  have member := content_builtIn family inside
  refine congrArg (family.extract screening) (Matcher.cut_bound plain (fun block among => ?_) bound)
  cases own : family.owns block.name with
  | false => rfl
  | true =>
    have apart := not_isOff_of_owns member kept own
    rw [off block among] at apart
    cases apart

end Registry

end MarkupActions
