import MarkupActions.Proofs.Fewer
import MarkupActions.Proofs.Shells
import MarkupActions.Proofs.Stripping

/-!
# Preparing a text with fewer families

What a family takes part in while a text is prepared: it mends the text, and its blocks are kept
from being mended by others or stripped. Where its repairs find nothing, and its blocks hold nothing
that the others would mend, name or strip, the text is mended and stripped without it as with it.
-/

namespace MarkupActions

open Code (tick)
open OpeningTag (unbroken)
open Registry (builtIn those mendWith foreign)

namespace Layout

variable {Part : Type} {write : Part → Text}

theorem select_select (p q : Part → Bool) (l : Layout Part) :
    (l.select p write).select q write = l.select (fun part => p part && q part) write := by
  induction l with
  | last gap => rfl
  | next gap part rest ih =>
    cases chosen : p part with
    | true => simp [select, chosen, ih]
    | false => simp [select, chosen, ih, select_prepend]

theorem select_congr {p q : Part → Bool} {l : Layout Part}
    (same : ∀ part ∈ l.parts, p part = q part) :
    l.select p write = l.select q write := by
  induction l with
  | last gap => rfl
  | next gap part rest ih =>
    rw [parts, List.forall_mem_cons] at same
    rw [select, select, same.1, ih same.2]

/-- Whether some blocks may be taken for text when the gaps are mended: the repairs leave their own
text alone, and no tag breaks off in front of them. -/
def Unmended (repairs : List Repair) (off : Block → Bool) : Layout Block → Prop
  | last _ => True
  | next gap block rest =>
    (off block = true → Repair.steady repairs gap = true ∧
      ∀ repair ∈ repairs, repair.apply block.text = block.text) ∧
    rest.Unmended repairs off

instance (repairs : List Repair) (off : Block → Bool) : (l : Layout Block) →
    Decidable (l.Unmended repairs off)
  | last _ => isTrue trivial
  | next _ _ rest => @instDecidableAnd _ _ _ (instDecidableUnmended repairs off rest)

end Layout

namespace Repair

variable {repairs : List Repair}

theorem applyAll_of_quiet {u : Text} (quiet : ∀ repair ∈ repairs, repair.apply u = u) :
    applyAll repairs u = u :=
  foldl_eq_self quiet

theorem steady_of_quiet {u : Text} (whole : unbroken u = true)
    (quiet : ∀ repair ∈ repairs, repair.apply u = u) : steady repairs u = true := by
  induction repairs with
  | nil => rfl
  | cons repair repairs ih =>
    rw [steady, whole, quiet repair List.mem_cons_self, Bool.true_and]
    exact ih fun other inside => quiet other (List.mem_cons_of_mem _ inside)

/-- Gaps are mended alike whether such blocks stand between them or in them. -/
theorem applyOutside_select (orderly : ∀ repair ∈ repairs, repair.mendsTags = true)
    {keep : Block → Bool} {l : Layout Block}
    (whole : ∀ block ∈ l.parts, keep block = false → unbroken block.text = true)
    (unmended : l.Unmended repairs fun block => !keep block) :
    applyOutside repairs Block.text (l.select keep Block.text) =
      applyOutside repairs Block.text l := by
  unfold applyOutside
  induction l with
  | last gap => rfl
  | next gap block rest ih =>
    obtain ⟨here, later⟩ := unmended
    rw [Layout.parts, List.forall_mem_cons] at whole
    cases kept : keep block with
    | true => simp [Layout.select, kept, Layout.mapGaps, Layout.text, ih whole.2 later]
    | false =>
      obtain ⟨steady, quiet⟩ := here (by simp [kept])
      have passes : ∀ s, applyAll repairs (gap ++ block.text ++ s) =
          applyAll repairs gap ++ block.text ++ applyAll repairs s := by
        intro s
        rw [List.append_assoc, applyAll_join orderly steady,
          applyAll_join orderly (steady_of_quiet (whole.1 kept) quiet), applyAll_of_quiet quiet,
          List.append_assoc]
      simp [Layout.select, kept, Layout.mapGaps, Layout.text, ih whole.2 later,
        Layout.mapGaps_prepend passes]

end Repair

namespace Registry

variable {keep : Family → Bool} {family : Family} {s text : Text}

/-- Whether a family mends a text without those that are off as it does with them: no block of the
others stands in their blocks, no tag breaks off in these or in front of them, and the family finds
nothing to mend in them. -/
structure MendsAlike (keep : Family → Bool) (family : Family) (s : Text) : Prop where
  idle : ∀ block ∈ builtIn.table.anySpellingMatcher.blocks s,
    (those keep).table.knows block.name = false →
      (those keep).table.anySpellingMatcher.blocks block.text = [] ∧ unbroken block.text = true
  unmended : ((builtIn.table.anySpellingMatcher.layout s).select (foreign builtIn.table family)
    Block.text).Unmended family.repairs fun block => !(those keep).table.knows block.name

instance (keep : Family → Bool) (family : Family) (s : Text) :
    Decidable (MendsAlike keep family s) :=
  decidable_of_iff (_ ∧ _) ⟨fun both => ⟨both.1, both.2⟩, fun apart => ⟨apart.idle, apart.unmended⟩⟩

theorem mendWith_those (member : family ∈ Family.builtIn) (apart : MendsAlike keep family s) :
    mendWith (those keep).table s family = mendWith builtIn.table s family := by
  obtain ⟨idle, unmended⟩ := apart
  have cut := SpellingTable.narrows_anySpelling.layout_eq fun block inside off =>
    ⟨(idle block inside off).1, OpeningTag.untorn_of_unbroken (idle block inside off).2⟩
  rw [mendWith_eq, mendWith_eq, cut, Layout.select_select]
  rw [← Repair.applyOutside_select (Repair.builtIn_mendsTags family member)
    (fun block inside off => (idle block (Layout.mem_parts_select.mp inside).1 off).2) unmended,
    Layout.select_select]
  refine congrArg _ (Layout.select_congr fun block _ => ?_)
  cases known : (those keep).table.canonical? block.name with
  | none => simp [SpellingTable.knows, known]
  | some tag =>
    have stands := SpellingTable.canonical?_of_filter SpellingTable.agree_builtIn known
    simp [SpellingTable.knows, known, foreign,
      show builtIn.table.canonical? block.name = some tag from stands]

/-- Whether a text is mended without the families that are off as it is with them. These find
nothing to mend, and the others mend it apart from them, each as those before it have left it. -/
def Unmended (keep : Family → Bool) : List Family → Text → Prop
  | [], _ => True
  | family :: families, s =>
    (if keep family then MendsAlike keep family s else mendWith builtIn.table s family = s) ∧
      Unmended keep families (mendWith builtIn.table s family)

instance (keep : Family → Bool) : (families : List Family) → (s : Text) →
    Decidable (Unmended keep families s)
  | [], _ => isTrue trivial
  | _ :: families, _ => @instDecidableAnd _ _ _ (instDecidableUnmended keep families _)

theorem foldl_mendWith_those {families : List Family} (less : ∀ family ∈ families,
    family ∈ Family.builtIn) (unmended : Unmended keep families s) :
    (families.filter keep).foldl (mendWith (those keep).table) s =
      families.foldl (mendWith builtIn.table) s := by
  induction families generalizing s with
  | nil => rfl
  | cons family families ih =>
    obtain ⟨here, later⟩ := unmended
    have rest := ih (fun other inside => less other (List.mem_cons_of_mem _ inside)) later
    rw [List.foldl_cons, ← rest, List.filter_cons]
    cases kept : keep family with
    | true =>
      rw [kept, if_pos rfl] at here
      rw [if_pos rfl, List.foldl_cons, mendWith_those (less family List.mem_cons_self) here]
    | false =>
      rw [kept, if_neg (by simp)] at here
      rw [if_neg (by simp), here]

theorem mend_those (unmended : Unmended keep Family.builtIn text) :
    (those keep).mend text = builtIn.mend text :=
  foldl_mendWith_those (fun _ member => member) unmended

end Registry

namespace Inert

/-- Whether nothing is marked up in a text, neither as code nor as a literal block. -/
def marksNothing (u : Text) : Bool :=
  (u.all fun c => c != tick && c != '~') && !Text.contains ('<' :: literalName) (Text.lower u)

variable {guarded guarded' : Matcher} {table : SpellingTable} {lineStart : Bool} {u s : Text}

theorem marksNothing_iff : marksNothing u = true ↔ (tick ∉ u ∧ '~' ∉ u) ∧
    Text.contains ('<' :: literalName) (Text.lower u) = false := by
  simp only [marksNothing, Bool.and_eq_true, Bool.not_eq_true', List.all_eq_true, bne_iff_ne, ne_eq]
  refine and_congr_left fun _ => ⟨fun bare => ?_, fun bare c inside => ?_⟩
  · exact ⟨fun inside => (bare tick inside).1 rfl, fun inside => (bare '~' inside).2 rfl⟩
  · exact ⟨fun same => bare.1 (same ▸ inside), fun same => bare.2 (same ▸ inside)⟩

theorem marksNothing_suffix {a : Text} (bare : marksNothing (a ++ u) = true) :
    marksNothing u = true := by
  rw [marksNothing_iff] at bare ⊢
  obtain ⟨⟨ticks, tildes⟩, literals⟩ := bare
  simp only [List.mem_append, not_or] at ticks tildes
  refine ⟨⟨ticks.2, tildes.2⟩, ?_⟩
  cases found : Text.contains ('<' :: literalName) (Text.lower u) with
  | false => rfl
  | true =>
    have within := Text.contains_iff_within.mp found
    have wider : Text.contains ('<' :: literalName) (Text.lower (a ++ u)) = true := by
      rw [Text.contains_iff_within, Text.lower, List.map_append]
      exact within.trans (List.suffix_append _ _).isInfix
    rw [wider] at literals
    cases literals

/-- No region opens where nothing is marked up up to a bracket. -/
theorem regionLength?_of_marksNothing {c : Char} (bare : marksNothing (c :: u) = true)
    (closes : '>' ∈ u ∨ c = '>') (s : Text) : regionLength? lineStart (c :: (u ++ s)) = none := by
  obtain ⟨⟨ticks, tildes⟩, literals⟩ := marksNothing_iff.mp bare
  have bracket : '>' ∈ c :: u := by
    rcases closes with inside | rfl
    · exact List.mem_cons_of_mem _ inside
    · exact List.mem_cons_self
  have calm := Code.calm_of_mem (s := s) ⟨ticks, tildes⟩ bracket (by decide)
  rw [List.cons_append] at calm
  rw [regionLength?_of_not_code calm]
  · unfold literalLength?
    have absent : Text.afterLower? ('<' :: literalName) (c :: (u ++ s)) = none := by
      cases found : Text.afterLower? ('<' :: literalName) (c :: (u ++ s)) with
      | none => rfl
      | some rest =>
        obtain ⟨front, whole, matched⟩ := Text.afterLower?_eq_some.mp found
        rcases List.append_eq_append_iff.mp (show (c :: u) ++ s = front ++ rest from whole)
          with ⟨k, rfl, _⟩ | ⟨k, split, _⟩
        · have inside : '>' ∈ Text.lower (c :: u ++ k) :=
            List.mem_map.mpr ⟨'>', List.mem_append_left _ bracket, rfl⟩
          rw [matched] at inside
          exact absurd inside (by decide)
        · have within : Text.contains ('<' :: literalName) (Text.lower (c :: u)) = true := by
            rw [Text.contains_iff_within, split, Text.lower, List.map_append]
            exact ⟨[], Text.lower k, by rw [← matched]; rfl⟩
          rw [literals] at within
          cases within
    rw [absent]
  · rintro head
    obtain rfl := Option.some.inj head
    exact ticks List.mem_cons_self

/-- A text is kept that names no tag of the table and marks up nothing, if no tag breaks off in it.
-/
theorem strip_pass {m : Matcher} (narrows : Matcher.Narrows table m guarded)
    (silent : table.silent (u ++ ['>']) = true) (whole : unbroken (u ++ ['>']) = true)
    (bare : marksNothing (u ++ ['>']) = true) (s : Text) :
    strip guarded lineStart (u ++ '>' :: s) = u ++ '>' :: strip guarded false s := by
  induction u generalizing lineStart with
  | nil =>
    have plain := @regionLength?_of_marksNothing lineStart [] '>' bare (.inr rfl) s
    rw [List.nil_append] at plain
    exact strip_cons plain (blockAt?_of_ne (by decide) s) (by decide)
  | cons c u ih =>
    have shape : ∀ s : Text, u ++ '>' :: s = (u ++ ['>']) ++ s := fun s => by simp
    have plain := @regionLength?_of_marksNothing lineStart (u ++ ['>']) c bare (.inl (by simp)) s
    have none : guarded.blockAt? (c :: (u ++ '>' :: s)) = none := by
      by_cases bracket : c = '<'
      · subst bracket
        refine narrows.blockAt?_silent silent ?_
        rw [List.cons_append] at whole ⊢
        have same := OpeningTag.read?_untorn (OpeningTag.untorn_of_unbroken whole) s []
        rwa [List.append_nil, ← shape] at same
      · exact blockAt?_of_ne bracket _
    have other : c ≠ tick := by
      rintro rfl
      exact (marksNothing_iff.mp bare).1.1 List.mem_cons_self
    rw [← shape] at plain
    rw [List.cons_append, strip_cons plain none other,
      ih (SpellingTable.silent_suffix (a := [c]) silent)
        (OpeningTag.unbroken_suffix (a := [c]) whole) (marksNothing_suffix (a := [c]) bare)]
    rfl

/-- A stripped text, cut at the blocks that are copied although the table does not know them. -/
def parted (table : SpellingTable) (m : Matcher) (lineStart : Bool) : Text → Layout Block
  | [] => .last []
  | c :: s =>
    match regionLength? lineStart (c :: s) with
    | some n => parted table m false (s.drop (n - 1))
    | none =>
      match m.blockAt? (c :: s) with
      | some block =>
        let rest := parted table m false (s.drop (block.text.length - 1))
        if table.knows block.name then rest.prepend block.text else .next [] block rest
      | none =>
        let n := Code.plainLength (c :: s)
        (parted table m (c == '\n') (s.drop (n - 1))).prepend (c :: s.take (n - 1))
termination_by s => s.length
decreasing_by all_goals (simp only [List.length_drop, List.length_cons]; omega)

theorem text_parted (table : SpellingTable) (m : Matcher) (lineStart : Bool) (s : Text) :
    (parted table m lineStart s).text Block.text = strip m lineStart s := by
  induction lineStart, s using strip.induct m with
  | case1 lineStart => rw [parted, strip, Layout.text]
  | case2 lineStart c s n region ih => simp only [parted, strip, region, ih]
  | case3 lineStart c s region block found ih =>
    simp only [parted, strip, region, found]
    split
    · rw [Layout.text_prepend, ih]
    · rw [Layout.text, ih, List.nil_append]
  | case4 lineStart c s region none n ih =>
    simp only [parted, strip, region, none, Layout.text_prepend]
    rw [← ih]

/-- What is parted from the rest is not known to the table. -/
theorem unknown_of_parted {m : Matcher} {block : Block}
    (inside : block ∈ (parted table m lineStart s).parts) : table.knows block.name = false := by
  induction lineStart, s using strip.induct m with
  | case1 lineStart =>
    rw [parted] at inside
    cases inside
  | case2 lineStart c s n region ih =>
    simp only [parted, region] at inside
    exact ih inside
  | case3 lineStart c s region other found ih =>
    simp only [parted, region, found] at inside
    split at inside
    · exact ih (by simpa using inside)
    · rename_i unknown
      rcases List.mem_cons.mp inside with rfl | later
      · exact Bool.eq_false_iff.mpr unknown
      · exact ih later
  | case4 lineStart c s region none n ih =>
    simp only [parted, region, none, Layout.parts_prepend] at inside
    exact ih inside

/-- Whether a text is stripped by itself, whatever stands in front of it and behind it: no region
that opens in it reaches further. -/
def StripsAlone (guarded : Matcher) (u : Text) : Prop :=
  ∀ lineStart s, strip guarded lineStart (u ++ s) = strip guarded false u ++ strip guarded false s

theorem stripsAlone_of_marksNothing {m : Matcher} (narrows : Matcher.Narrows table m guarded)
    (silent : table.silent (u ++ ['>']) = true) (whole : unbroken (u ++ ['>']) = true)
    (bare : marksNothing (u ++ ['>']) = true) : StripsAlone guarded (u ++ ['>']) := by
  intro lineStart s
  have here := @strip_pass _ _ false _ _ narrows silent whole bare []
  rw [strip] at here
  rw [here, List.append_assoc, List.singleton_append, strip_pass narrows silent whole bare]
  simp

namespace StripsAlone

theorem append {v : Text} (alone : StripsAlone guarded u)
    (later : ∀ s, strip guarded false (v ++ s) = strip guarded false v ++ strip guarded false s) :
    StripsAlone guarded (u ++ v) := by
  intro lineStart s
  rw [List.append_assoc, alone, later, alone false v, List.append_assoc]

/-- A row goes on with words. -/
theorem words {w : Text} (alone : StripsAlone guarded u)
    (unmarked : '<' ∉ w ∧ tick ∉ w) (one : '\n' ∉ w) : StripsAlone guarded (u ++ w) := by
  have kept : ∀ s, strip guarded false (w ++ s) = w ++ strip guarded false s := by
    intro s
    induction w with
    | nil => rfl
    | cons c w ih =>
      simp only [List.mem_cons, not_or] at unmarked one
      have other := Ne.symm unmarked.2.1
      have plain : regionLength? false (c :: (w ++ s)) = none := by
        simp [regionLength?, Code.regionLength?, Code.spanLength?_of_ne other,
          literalLength?_of_ne (Ne.symm unmarked.1.1)]
      have row : (c == '\n') = false := beq_false_of_ne (Ne.symm one.1)
      rw [List.cons_append, strip_cons plain (blockAt?_of_ne (Ne.symm unmarked.1.1) _) other, row,
        ih ⟨unmarked.1.2, unmarked.2.2⟩ one.2]
      rfl
  refine alone.append fun s => ?_
  have all := kept []
  rw [strip, List.append_nil] at all
  rw [kept, all]

/-- A span of code in front of a tag is taken out. -/
theorem span {run : Nat} {content v : Text} (alone : StripsAlone guarded u) (positive : 0 < run)
    (fits : Code.Spannable content) (later : StripsAlone guarded ('<' :: v)) :
    StripsAlone guarded (u ++
      (List.replicate run tick ++ (content ++ (List.replicate run tick ++ '<' :: v)))) := by
  have cut : ∀ s, strip guarded false
      (List.replicate run tick ++ (content ++ (List.replicate run tick ++ '<' :: s))) =
        strip guarded false ('<' :: s) := by
    intro s
    have found := @Code.regionLength?_span run content ('<' :: s) positive fits (by simp [tick])
      false
    have region := @strip_region guarded false
      (List.replicate run tick ++ (content ++ List.replicate run tick)) ('<' :: s)
      (by simp only [List.append_assoc, regionLength?, found]; simp) (by simp [fits.more])
    simpa using region
  refine alone.append fun s => ?_
  have split := cut (v ++ s)
  simp only [List.append_assoc, List.cons_append] at split ⊢
  rw [split, cut, ← later, List.cons_append]

end StripsAlone

/-- Without the families that are missing, the blocks that they keep are stripped like the rest. -/
theorem strip_parted {m : Matcher} (narrows : Matcher.Narrows table m guarded)
    (alone : ∀ block ∈ (parted table m lineStart s).parts, StripsAlone guarded block.text) :
    strip guarded lineStart s =
      (parted table m lineStart s).text fun block => strip guarded false block.text := by
  induction lineStart, s using strip.induct m with
  | case1 lineStart => rw [parted, strip, Layout.text]
  | case2 lineStart c s n region ih =>
    simp only [parted, region] at alone
    simp only [parted, strip, region, ih alone]
  | case3 lineStart c s region block found ih =>
    simp only [parted, region, found] at alone ⊢
    obtain ⟨rest, whole⟩ := Matcher.blockAt?_split found
    rw [Text.drop_front whole block.text_length_pos] at ih alone ⊢
    rw [whole] at region found ⊢
    split at alone
    · rename_i known
      rw [if_pos known, Layout.text_prepend, ← ih (by simpa using alone)]
      exact strip_block region (narrows.blockAt?_known found known)
    · rename_i unknown
      rw [Layout.parts, List.forall_mem_cons] at alone
      rw [if_neg unknown, Layout.text, alone.1, ← ih alone.2, List.nil_append]
  | case4 lineStart c s region none n ih =>
    simp only [parted, region, none, Layout.parts_prepend] at alone ⊢
    rw [Layout.text_prepend, ← ih alone]
    simp only [strip, region, narrows.blockAt?_none none, n]

end Inert

end MarkupActions
