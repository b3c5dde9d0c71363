import MarkupActions.Proofs.Hiding
import MarkupActions.Proofs.Openers

/-!
# A tag that stays open

An opening tag in front of a frame with which the text ends. In no pass is a closing tag found for
it, so the tag is mended and renamed by itself, and what is framed is taken out.
-/

namespace MarkupActions

open Code (tick)
open Registry (builtIn)

namespace SpellingTable

/-- The names whose closing tags are looked for behind an opening tag before inert regions are gone.
-/
def closers (table : SpellingTable) (tag : Text) : List Text :=
  if (table.guardedMatcher.mode? tag).isSome then table.spellings tag else []

/-- What the passes rely on in an entry of a table: its canonical tag stands for itself, blocks that
bear content are known by every spelling and guarded, and a guarded tag is like no other and not
ended where its attributes end. -/
structure Sound (table : SpellingTable) (families : List Family) (entry : Text × Text) : Prop where
  canonical : table.canonical? entry.2 = some entry.2
  mode : table.anySpellingMatcher.mode? entry.1 = if table.isContent entry.2 then some .content
    else none
  guarded : table.isContent entry.2 = true → (table.guardedMatcher.mode? entry.2).isSome = true
  unlike : (table.guardedMatcher.mode? entry.2).isSome = true → table.Unlike entry.2
  quotes : ∀ family ∈ families, ∀ repair ∈ family.repairs, repair.sparesQuotes entry.1 = true
  passes : (table.guardedMatcher.mode? entry.2).isSome = true →
    ∀ family ∈ families, ∀ repair ∈ family.repairs,
    repair.endsOpening = true → repair.passes entry.1 = true

theorem sound_builtIn : ∀ entry ∈ builtIn.table.entries,
    Sound builtIn.table Family.builtIn entry := by
  have checked : ∀ entry ∈ builtIn.table.entries,
      (builtIn.table.canonical? entry.2 = some entry.2 ∧
        builtIn.table.anySpellingMatcher.mode? entry.1 =
          if builtIn.table.isContent entry.2 then some .content else none) ∧
      (builtIn.table.isContent entry.2 = true →
        (builtIn.table.guardedMatcher.mode? entry.2).isSome = true) ∧
      ((builtIn.table.guardedMatcher.mode? entry.2).isSome = true → builtIn.table.Unlike entry.2 ∧
        ∀ family ∈ Family.builtIn, ∀ repair ∈ family.repairs, repair.endsOpening = true →
          repair.passes entry.1 = true) ∧
      ∀ family ∈ Family.builtIn, ∀ repair ∈ family.repairs, repair.sparesQuotes entry.1 = true := by
    simp only [Unlike, ← List.isPrefixOf_iff_prefix]
    decide +kernel
  intro entry inside
  obtain ⟨⟨canonical, mode⟩, guarded, apart, quotes⟩ := checked entry inside
  exact ⟨canonical, mode, guarded, fun known => (apart known).1, quotes, fun known =>
    (apart known).2⟩

end SpellingTable

open SpellingTable

/-- An opening tag of a family that does not close itself. No other tag begins in its attributes,
and no code region may open in them if blocks of the tag are not guarded. -/
structure Opener (tag : OpeningTag) (canonical : Text) : Prop where
  read : OpeningTag.read? tag.text = some tag
  known : builtIn.table.canonical? tag.name = some canonical
  stays : tag.closesItself = false
  tags : '<' ∉ tag.attributes
  uncoded : builtIn.table.guardedMatcher.mode? canonical = none → Uncoded tag.attributes

namespace Opener

variable {tag : OpeningTag} {canonical : Text}

theorem trail (opener : Opener tag canonical) : Trail (tag.attributes ++ ['>']) :=
  OpeningTag.trail opener.read opener.tags

theorem entry (opener : Opener tag canonical) :
    (Text.lower tag.name, canonical) ∈ builtIn.table.entries :=
  mem_of_canonical? opener.known

theorem tagName (opener : Opener tag canonical) : TagName tag.name :=
  (orderly_builtIn _ opener.entry).1

theorem lower_canonical (opener : Opener tag canonical) : Text.lower canonical = canonical :=
  Text.lower_of_isPlain (Repair.isPlain_of_fits (orderly_builtIn _ opener.entry).2.1)

theorem canonicalName (opener : Opener tag canonical) : TagName canonical := by
  rw [TagName, opener.lower_canonical]
  exact (orderly_builtIn _ opener.entry).2.1

theorem ne_literal (opener : Opener tag canonical) : Text.lower canonical ≠ Inert.literalName := by
  intro same
  have apart := (orderly_builtIn _ opener.entry).2.2
  rw [opener.lower_canonical] at same
  rw [same] at apart
  cases apart

theorem sound (opener : Opener tag canonical) :
    Sound builtIn.table Family.builtIn (Text.lower tag.name, canonical) :=
      sound_builtIn _ opener.entry

/-- The tag is read whatever comes after it. -/
theorem read?_append (opener : Opener tag canonical) (s : Text) :
    OpeningTag.read? (tag.text ++ s) = some tag := by
  have settled := opener.trail.settles_name opener.tagName
  have whole : tag.text = '<' :: (tag.name ++ (tag.attributes ++ ['>'])) := by
    simp [OpeningTag.text]
  rw [whole, List.cons_append, OpeningTag.read?_append settled, ← whole]
  exact opener.read

/-- Renamed it is such a tag still. -/
theorem renamed (opener : Opener tag canonical) : Opener ⟨canonical, tag.attributes⟩ canonical where
  read := by
    obtain ⟨c, letters, shape, letter⟩ := opener.canonicalName.exists_cons
    obtain ⟨d, rest, parts, stop⟩ := opener.trail.exists_cons
    have named : ∀ e ∈ letters, Text.isNameChar e = true :=
      fun e inside => opener.canonicalName.letters e
        (by rw [shape]; exact List.mem_cons_of_mem _ inside)
    have read := @OpeningTag.read?_text
      ⟨canonical, tag.attributes⟩ c d letters rest [] shape letter named parts stop
      (OpeningTag.read?_self opener.read).1
    rwa [List.append_nil] at read
  known := opener.sound.canonical
  stays := opener.stays
  tags := opener.tags
  uncoded := opener.uncoded

end Opener

/-- The closing tags that a matcher or the renaming looks for are by names of the tag. -/
theorem closing_named {key t : Text} {n : Nat} (found : ClosingTag.length? key t = some n) :
    ∃ name back, t = '<' :: '/' :: (name ++ back) ∧ Text.lower name = key := by
  obtain ⟨front, blanks, rest, rfl, lower, _⟩ := ClosingTag.length?_eq_some.mp found
  obtain ⟨c, inner, rfl, bracket, later⟩ := List.map_eq_cons_iff.mp lower
  obtain ⟨d, name, rfl, slash, same⟩ := List.map_eq_cons_iff.mp later
  obtain rfl := Text.eq_of_toLower_eq (by decide) bracket
  obtain rfl := Text.eq_of_toLower_eq (by decide) slash
  exact ⟨name, blanks ++ '>' :: rest, rfl, same⟩

namespace Matcher

/-- A tag that does not close itself and for which no closing tag is found is a block by itself. -/
theorem blockAt?_unclosed {m : Matcher} {tag : OpeningTag} {mode : ScanMode} {s : Text}
    (read : OpeningTag.read? (tag.text ++ s) = some tag) (known : m.mode? tag.key = some mode)
    (stays : tag.closesItself = false) (none : closing? mode (ClosingTag.length? tag.key) s = none)
    :
    m.blockAt? ((Block.mk tag .unclosed).text ++ s) = some ⟨tag, .unclosed⟩ := by
  have whole : (Block.mk tag .unclosed).text = tag.text := rfl
  simp [blockAt?, blockOf?, whole, read, known, extentOf, stays, none]

/-- A tag of a name that a matcher does not know is passed over, complete or not. -/
theorem layout_opening {m : Matcher} {name rest : Text} (named : TagName name) (trail : Trail rest)
    (unknown : m.mode? (Text.lower name) = none) (s : Text) :
    m.layout ('<' :: (name ++ (rest ++ s))) = (m.layout s).prepend ('<' :: (name ++ rest)) := by
  have unmarked : '<' ∉ name ++ rest := by
    simp [trail.tags, named.unmarked (by decide : Text.isNameChar '<' = false)]
  have same := OpeningTag.read?_append (trail.settles_name named) s
  rw [← List.append_assoc]
  cases read : OpeningTag.read? ('<' :: (name ++ rest)) with
  | none =>
    rw [layout_cons (same.trans read), layout_prose unmarked, Layout.prepend_prepend]
    rfl
  | some tag =>
    obtain ⟨more, whole⟩ := OpeningTag.read?_split read
    have key : m.mode? tag.key = none := by rwa [OpeningTag.key, named.name_eq trail.stop read]
    have past : '<' ∉ more := by
      obtain ⟨_, inner⟩ := List.cons.inj whole
      exact fun inside => unmarked (by rw [inner]; simp [inside])
    rw [← List.cons_append, whole] at same ⊢
    rw [List.append_assoc] at same ⊢
    rw [layout_tag (same.trans (whole ▸ read)) key, layout_prose past, Layout.prepend_prepend]

end Matcher

/-- Prose between an opening tag and a frame. A fence begins on a row of its own. -/
structure Leads (frame : Frame) (before : Text) : Prop where
  prose : Prose before
  row : frame.shell.isFence = true → before.getLast? = some '\n'

namespace Leads

variable {frame : Frame} {before s : Text}

theorem transparent (leads : Leads frame before) : Transparent (before ++ frame.opening) :=
  (Transparent.prose leads.prose.tags).append frame.transparent_opening

theorem clear (leads : Leads frame before) (remains : frame.Remains s) :
    Clear before (frame.opening ++ s) := by
  obtain ⟨prose, row⟩ := leads
  refine prose.clear ?_
  obtain ⟨shell, plain⟩ := frame
  cases shell with
  | fence => exact .inl (row rfl)
  | literal => exact .inr (Code.fenceLength?_of_calm (Code.calm_cons (by decide) _))
  | span run positive =>
    obtain ⟨content, tail, rfl, fits, _⟩ := remains
    exact .inr (Code.fenceLength?_span positive fits)

end Leads

namespace Registry

variable {tag : OpeningTag} {canonical before rest : Text} {family : Family} {frame : Frame}

/-- Repairs go over a guarded tag and leave it as it is. -/
theorem apply_guarded (opener : Opener tag canonical) (member : family ∈ Family.builtIn)
    (guarded : (builtIn.table.guardedMatcher.mode? canonical).isSome = true) {repair : Repair}
    (listed : repair ∈ family.repairs) (s : Text) :
    repair.apply (tag.text ++ s) = tag.text ++ repair.apply s := by
  have orderly := (Repair.builtIn_mendsTags family member) repair listed
  obtain ⟨rest', _, keeps, all⟩ := Repair.patchAll_opening orderly
    (opener.sound.quotes family member repair listed)
    opener.tagName opener.trail
  have step := all s
  rw [keeps (opener.sound.passes guarded family member repair listed)] at step
  rw [Repair.apply_eq orderly, Repair.apply_eq orderly]
  simpa [OpeningTag.text] using step

/-- A family passes over a tag of a block that bears content, as it is not closed. -/
theorem mendWith_content_opener (opener : Opener tag canonical) (leads : Leads frame before)
    (member : family ∈ Family.builtIn) (content : builtIn.table.isContent canonical = true)
    {s : Text}
    (hides : frame.Hides (builtIn.table.closers canonical) s) :
    mendWith builtIn.table (tag.text ++ (before ++ (frame.opening ++ s))) family =
      tag.text ++ mendWith builtIn.table (before ++ (frame.opening ++ s)) family := by
  have guarded := opener.sound.guarded content
  have mode : builtIn.table.anySpellingMatcher.mode? (Text.lower tag.name) = some .content := by
    simpa [content] using opener.sound.mode
  have none : closing? .content (ClosingTag.length? tag.key) (before ++ (frame.opening ++ s)) =
    none := by
    refine hides.closing?_none (leads.clear hides.remains) leads.row fun t n found => ?_
    obtain ⟨name, back, rfl, same⟩ := closing_named found
    refine ⟨name, back, rfl, ?_⟩
    rw [closers, if_pos guarded, same]
    exact mem_spellings.mpr opener.entry
  have found := Matcher.blockAt?_unclosed (opener.read?_append _) mode opener.stays none
  exact @mendWith_block _ _ (Repair.builtIn_mendsTags family member) [] _ ⟨tag, .unclosed⟩
    (by simp) found
    fun _ repair listed t => apply_guarded opener member guarded listed t

/-- Any other tag is mended by itself. -/
theorem mendWith_plain_opener (opener : Opener tag canonical)
    (plain : builtIn.table.isContent canonical = false) {rest' : Text} (trail : Trail rest)
    (passes : ∀ s, Repair.applyAll family.repairs ('<' :: (tag.name ++ (rest ++ s))) =
      '<' :: (tag.name ++ (rest' ++ Repair.applyAll family.repairs s))) (s : Text) :
    mendWith builtIn.table ('<' :: (tag.name ++ (rest ++ s))) family =
      '<' :: (tag.name ++ (rest' ++ mendWith builtIn.table s family)) := by
  have unknown : builtIn.table.anySpellingMatcher.mode? (Text.lower tag.name) = none := by
    simpa [plain] using opener.sound.mode
  have passed : ∀ t, Repair.applyAll family.repairs ('<' :: (tag.name ++ rest) ++ t) =
      '<' :: (tag.name ++ rest') ++ Repair.applyAll family.repairs t :=
        fun t => by simpa using passes t
  rw [mendWith_eq, mendWith_eq, Matcher.layout_opening opener.tagName trail unknown,
    Layout.select_prepend, Repair.applyOutside, Layout.mapGaps_prepend passed, Layout.text_prepend,
    Repair.applyOutside]
  simp

/-- One family mends the tag and what is framed, each by itself. -/
theorem mendWith_opener (opener : Opener tag canonical) (leads : Leads frame before)
    (member : family ∈ Family.builtIn) (trail : Trail rest)
    (fixed : (builtIn.table.guardedMatcher.mode? canonical).isSome = true →
      rest = tag.attributes ++ ['>']) :
    ∃ rest', Rewrites Closes rest rest' ∧
      ((builtIn.table.guardedMatcher.mode? canonical).isSome = true → rest' = rest) ∧
      ∀ s, frame.Hides (builtIn.table.closers canonical) s →
        mendWith builtIn.table ('<' :: (tag.name ++ (rest ++ (before ++ (frame.opening ++ s)))))
          family =
          '<' :: (tag.name ++ (rest' ++ (before ++
            (frame.opening ++ mendWith builtIn.table s family)))) := by
  have orderly := (Repair.builtIn_mendsTags family member)
  obtain ⟨rest', made, keeps, passes⟩ :=
    Repair.applyAll_opening orderly (opener.sound.quotes family member)
    opener.tagName trail
  have kept : (builtIn.table.guardedMatcher.mode? canonical).isSome = true → rest' = rest :=
    fun guarded => keeps (opener.sound.passes guarded family member)
  refine ⟨rest', made, kept, fun s hides => ?_⟩
  have around : mendWith builtIn.table (before ++ (frame.opening ++ s)) family =
      before ++ (frame.opening ++ mendWith builtIn.table s family) := by
    have step := mendWith_transparent leads.transparent orderly s
    simpa using step
  cases content : builtIn.table.isContent canonical with
  | true =>
    have guarded := opener.sound.guarded content
    obtain rfl := kept guarded
    obtain rfl := fixed guarded
    have step := mendWith_content_opener opener leads member content hides
    rw [around] at step
    simpa [OpeningTag.text] using step
  | false => rw [mendWith_plain_opener opener content trail passes, around]

theorem fits_closers (tag : Text) :
    ∀ name ∈ builtIn.table.closers tag, Repair.fits name = true := by
  intro name listed
  unfold closers at listed
  split at listed
  · exact (orderly_builtIn _ (mem_spellings.mp listed)).1
  · cases listed

theorem mendWith_hides (member : family ∈ Family.builtIn) {s : Text}
    (hides : frame.Hides (builtIn.table.closers canonical) s) :
    frame.Hides (builtIn.table.closers canonical) (mendWith builtIn.table s family) :=
  have run := mendWith_rewrites (Repair.builtIn_mendsTags family member) s
  ⟨Frame.remains_mended member hides.remains, fun verbatim =>
    (hides.absent verbatim).mended (fits_closers canonical) run⟩

/-- Families that mend one after the other change the opener of a block by itself, whatever its
frame holds. -/
theorem foldl_mendWith_opener (opener : Opener tag canonical) (leads : Leads frame before)
    {families : List Family}
    (among : ∀ family ∈ families, family ∈ Family.builtIn) (trail : Trail rest)
    (fixed : (builtIn.table.guardedMatcher.mode? canonical).isSome = true →
      rest = tag.attributes ++ ['>']) :
    ∃ rest', Rewrites Closes rest rest' ∧
      ((builtIn.table.guardedMatcher.mode? canonical).isSome = true → rest' = rest) ∧
      ∀ s, frame.Hides (builtIn.table.closers canonical) s →
        families.foldl (mendWith builtIn.table)
          ('<' :: (tag.name ++ (rest ++ (before ++ (frame.opening ++ s))))) =
            '<' :: (tag.name ++ (rest' ++ (before ++
              (frame.opening ++ families.foldl (mendWith builtIn.table) s)))) ∧
          frame.Hides (builtIn.table.closers canonical)
            (families.foldl (mendWith builtIn.table) s) := by
  induction families generalizing rest with
  | nil => exact ⟨rest, .refl rest, fun _ => rfl, fun s hides => ⟨rfl, hides⟩⟩
  | cons family families ih =>
    have member := among family List.mem_cons_self
    obtain ⟨middle, made, keeps, first⟩ := mendWith_opener opener leads member trail fixed
    obtain ⟨rest', made', keeps', later⟩ :=
      ih (fun other inside => among other (List.mem_cons_of_mem _ inside))
      (trail.rewrites made) fun guarded => (keeps guarded).trans (fixed guarded)
    refine ⟨rest', made.trans made', fun guarded =>
      (keeps' guarded).trans (keeps guarded), fun s hides => ?_⟩
    rw [List.foldl_cons, List.foldl_cons, first s hides]
    exact later _ (mendWith_hides member hides)

theorem mend_opener (opener : Opener tag canonical) (leads : Leads frame before) :
    ∃ rest, Rewrites Closes (tag.attributes ++ ['>']) rest ∧
      ((builtIn.table.guardedMatcher.mode? canonical).isSome = true →
        rest = tag.attributes ++ ['>']) ∧
      ∀ s, frame.Hides (builtIn.table.closers canonical) s →
        builtIn.mend (tag.text ++ (before ++ (frame.opening ++ s))) =
            '<' :: (tag.name ++ (rest ++ (before ++ (frame.opening ++ builtIn.mend s)))) ∧
          frame.Hides (builtIn.table.closers canonical) (builtIn.mend s) := by
  obtain ⟨rest, made, keeps, step⟩ := foldl_mendWith_opener opener leads
    (fun family (inside : family ∈ builtIn.families) => inside) opener.trail fun _ => rfl
  refine ⟨rest, made, keeps, fun s hides => ?_⟩
  have whole : tag.text ++ (before ++ (frame.opening ++ s)) =
      '<' :: (tag.name ++ (tag.attributes ++ ['>'] ++ (before ++ (frame.opening ++ s)))) := by
        simp [OpeningTag.text]
  rw [whole]
  exact step s hides

theorem hides_respelled (opener : Opener tag canonical) {s t : Text}
    (run : Rewrites (Respells builtIn.table) s t)
    (hides : frame.Hides (builtIn.table.closers canonical) s) :
    frame.Hides (builtIn.table.closers canonical) t := by
  refine ⟨Frame.remains_respelled run hides.remains, fun verbatim => ?_⟩
  have absent := hides.absent verbatim
  unfold closers at absent ⊢
  by_cases guarded : (builtIn.table.guardedMatcher.mode? canonical).isSome = true
  · rw [if_pos guarded] at absent ⊢
    exact noneCloses_renamed orderly_builtIn (opener.sound.unlike guarded) run absent
  · rw [if_neg guarded]
    intro name listed
    cases listed

/-- Renaming respells the name of the tag, and what is framed in one way or other. A closing tag
that is found for the tag is framed. -/
theorem rename_opener (opener : Opener tag canonical) (leads : Leads frame before)
    (trail : Trail rest) (s : Text) :
    ∃ t, Rewrites (Respells builtIn.table) s t ∧
      builtIn.normalize ('<' :: (tag.name ++ (rest ++ (before ++ (frame.opening ++ s))))) =
        '<' :: (canonical ++ (rest ++ (before ++ (frame.opening ++ t)))) := by
  have tags : '<' ∉ rest ++ before := by simp [trail.tags, leads.prose.tags]
  have read : TagToken.read? ((TagToken.mk false tag.name).text ++
    (rest ++ (before ++ (frame.opening ++ s)))) =
      some ⟨false, tag.name⟩ := by
    obtain ⟨d, tail, rfl, stop⟩ := trail.exists_cons
    exact TagToken.read?_eq_some.mpr ⟨_, rfl, opener.tagName.isName, by simpa using stop⟩
  rcases alone_or_pair read opener.known with alone | ⟨_, front, name, back, same, whole, pair⟩
  · refine ⟨builtIn.table.rename s, rename_rewrites s, ?_⟩
    have step := rename_alone read opener.known alone
    have around := leads.transparent.rename s
    rw [List.append_assoc] at around
    rw [rename_prose trail.tags, around] at step
    simpa [TagToken.text, normalize] using step
  · obtain ⟨_, rfl⟩ := TagToken.mk.inj same
    have step := rename_block pair
    rw [← whole] at step
    obtain ⟨named, known, _⟩ := closes?_text pair.closes
    have cut : (rest ++ before) ++ (frame.opening ++ s) = front ++
      '<' :: '/' :: (name ++ back) := by
      simpa [TagToken.text] using whole
    obtain ⟨k, rfl, rfl⟩ := Frame.closing_behind tags cut
    refine ⟨k ++ ((TagToken.mk true canonical).text ++ builtIn.table.rename back), ?_, ?_⟩
    · have made : Rewrites (Respells builtIn.table) (TagToken.mk true name).text
        (TagToken.mk true canonical).text :=
        .single (.token ⟨true, name⟩ canonical named known)
      exact (made.append (rename_rewrites back)).append_left k
    · simpa [TagToken.text, normalize] using step

/-- Of prose and a frame the prose is left, and perhaps ends of tags. -/
theorem strip_frame (leads : Leads frame before) {s : Text} (remains : frame.Remains s)
    (guarded : Matcher)
    (lineStart : Bool) : ∃ tail, Ends tail ∧
      Inert.strip guarded lineStart (before ++ (frame.opening ++ s)) = before ++ tail := by
  have start : frame.shell.isFence = true → startsRow lineStart before = true := fun fenced => by
    simp [startsRow, leads.row fenced]
  obtain ⟨region, tail, whole, more, only, found⟩ := Frame.region_remains remains start
  refine ⟨tail, only, ?_⟩
  rw [Inert.strip_clear (leads.clear remains), whole, Inert.strip_region found more,
    Inert.strip_ends only]

/-- The closing tag of a guarded block is not found. -/
theorem blockAt?_opener (opener : Opener tag canonical) (leads : Leads frame before)
    {mode : ScanMode}
    (known : builtIn.table.guardedMatcher.mode? canonical = some mode) {s : Text}
    (hides : frame.Hides (builtIn.table.closers canonical) s) :
    builtIn.table.guardedMatcher.blockAt?
        ((Block.mk ⟨canonical, tag.attributes⟩ .unclosed).text ++ (before ++ (frame.opening ++ s)))
        =
      some ⟨⟨canonical, tag.attributes⟩, .unclosed⟩ := by
  have key : OpeningTag.key ⟨canonical, tag.attributes⟩ = canonical := opener.lower_canonical
  have known' : builtIn.table.guardedMatcher.mode? (OpeningTag.key ⟨canonical, tag.attributes⟩) =
    some mode := by
    rw [key]
    exact known
  refine Matcher.blockAt?_unclosed (opener.renamed.read?_append _) known' opener.stays ?_
  refine hides.closing?_none (leads.clear hides.remains) leads.row fun t n found => ?_
  obtain ⟨name, back, rfl, same⟩ := closing_named found
  refine ⟨name, back, rfl, ?_⟩
  rw [closers, if_pos (by rw [known]; rfl), same, key]
  exact mem_spellings.mpr (by simpa [opener.lower_canonical] using opener.renamed.entry)

theorem clear_opener (opener : Opener tag canonical) (trail : Trail rest) (uncoded : Uncoded rest)
    (s : Text) :
    Clear (canonical ++ rest) s := by
  obtain ⟨d, tail, whole, _⟩ := trail.exists_cons
  have none : ∀ c, Text.isNameChar c = false → c ∉ canonical :=
    fun _ => opener.canonicalName.unmarked
  have prose : Prose canonical :=
    ⟨none '<' (by decide), none tick (by decide), none '~' (by decide)⟩
  have clear := trail.clear uncoded s
  exact (prose.clear (.inr (clear.unfenced [] rest rfl (by simp [whole])))).append clear

/-- What is left of a text with an open tag in front of a frame. -/
theorem strip_opener (opener : Opener tag canonical) (leads : Leads frame before)
    (trail : Trail rest)
    (fixed : (builtIn.table.guardedMatcher.mode? canonical).isSome = true →
      rest = tag.attributes ++ ['>'])
    (uncoded : builtIn.table.guardedMatcher.mode? canonical = none → Uncoded rest) {s : Text}
    (hides : frame.Hides (builtIn.table.closers canonical) s) :
    ∃ tail, Ends tail ∧ Inert.strip builtIn.table.guardedMatcher true
        ('<' :: (canonical ++ (rest ++ (before ++ (frame.opening ++ s))))) =
      '<' :: (canonical ++ (rest ++ (before ++ tail))) := by
  have stop : (rest ++ (before ++ (frame.opening ++ s))).head?.any Text.isNameChar = false := by
    obtain ⟨d, back, rfl, stop⟩ := trail.exists_cons
    simpa using stop
  have region : Inert.regionLength? true
    ('<' :: (canonical ++ (rest ++ (before ++ (frame.opening ++ s))))) = none := by
    obtain ⟨d, back, rfl, stop⟩ := trail.exists_cons
    rw [Inert.regionLength?_of_not_code (Code.calm_cons (by decide) _) (by simp [tick])]
    exact Inert.literalLength?_of_name opener.canonicalName.plain opener.ne_literal stop
  cases mode : builtIn.table.guardedMatcher.mode? canonical with
  | some mode =>
    obtain rfl := fixed (by rw [mode]; rfl)
    obtain ⟨tail, only, step⟩ := strip_frame leads hides.remains builtIn.table.guardedMatcher false
    have whole : ∀ t, '<' :: (canonical ++ (tag.attributes ++ ['>'] ++ t)) =
        (Block.mk ⟨canonical, tag.attributes⟩ .unclosed).text ++ t :=
          fun t => by simp [Block.text, OpeningTag.text]
    refine ⟨tail, only, ?_⟩
    rw [whole, whole, Inert.strip_block (by rwa [whole] at region)
      (blockAt?_opener opener leads mode hides), step]
  | none =>
    have unfound : builtIn.table.guardedMatcher.blockAt?
        ('<' :: (canonical ++ (rest ++ (before ++ (frame.opening ++ s))))) = none := by
      unfold Matcher.blockAt?
      cases read : OpeningTag.read? ('<' ::
        (canonical ++ (rest ++ (before ++ (frame.opening ++ s))))) with
      | none => rfl
      | some found =>
        have key : found.key = canonical := by
          rw [OpeningTag.key, opener.canonicalName.name_eq stop read, opener.lower_canonical]
        simp [Matcher.blockOf?, key, mode]
    have clear := clear_opener opener trail (uncoded mode) (before ++ (frame.opening ++ s))
    obtain ⟨tail, only, step⟩ := strip_frame leads hides.remains builtIn.table.guardedMatcher
      (startsRow ('<' == '\n') (canonical ++ rest))
    refine ⟨tail, only, ?_⟩
    rw [Inert.strip_cons region unfound (by decide), ← List.append_assoc canonical,
      Inert.strip_clear clear, step]
    simp

/-- What is left of the text does not depend on what is framed, but for ends of tags. -/
theorem working_opener (opener : Opener tag canonical) (leads : Leads frame before) :
    ∃ rest, Trail rest ∧ ∀ content, frame.Holds content →
      (frame.shell.isLiteral = true → NoneCloses (builtIn.table.closers canonical) content) →
      ∃ tail, Ends tail ∧ builtIn.working (tag.text ++ (before ++ frame.wrap content)) =
        '<' :: (canonical ++ (rest ++ (before ++ tail))) := by
  obtain ⟨rest, made, fixed, mended⟩ := mend_opener opener leads
  have trail := opener.trail.rewrites made
  refine ⟨rest, trail, fun content holds absent => ?_⟩
  have hides := Frame.Hides.of_holds (fits_closers canonical) holds absent
  obtain ⟨mend, hides⟩ := mended _ hides
  obtain ⟨t, run, renamed⟩ := rename_opener opener leads trail
    (builtIn.mend (content ++ frame.closing))
  obtain ⟨tail, only, stripped⟩ := strip_opener opener leads trail fixed
    (fun free => (opener.uncoded free).bracket.rewrites made) (hides_respelled opener run hides)
  refine ⟨tail, only, ?_⟩
  rw [working, Frame.wrap, mend, renamed, stripped]

end Registry

end MarkupActions
