import MarkupActions.Proofs.Idempotence
import MarkupActions.Proofs.Joins
import MarkupActions.Proofs.Lookups

/-!
# Some of the families

A registry with fewer families looks for fewer names. Where the blocks of the families that are
missing name no tag of those that are there, both cut a text alike, but for these blocks.
-/

namespace MarkupActions

/-- A tag that opens is a token, of the same name. -/
theorem TagToken.read?_of_opening {s : Text} {tag : OpeningTag}
    (read : OpeningTag.read? s = some tag) : TagToken.read? s = some ⟨false, tag.name⟩ := by
  obtain ⟨rest, whole, ⟨c, name, shape, letter, letters⟩, _, stop⟩ := OpeningTag.inv_read? read
  refine TagToken.read?_eq_some.mpr ⟨tag.attributes ++ '>' :: rest, ?_, ?_, stop⟩
  · rw [whole]
    simp [OpeningTag.text, TagToken.text]
  · rw [shape]
    exact ⟨by simpa using Text.startsName_of_isAlpha letter, letters⟩

namespace SpellingTable

variable {families : List Family} {keep : Family → Bool} {name tag : Text}

/-- What a name stands for among some of the families it stands for among all of them. -/
theorem canonical?_of_filter (agree : Agree families)
    (known : (ofFamilies (families.filter keep)).canonical? name = some tag) :
    (ofFamilies families).canonical? name = some tag := by
  obtain ⟨family, inside, entry, own, spelled, rfl⟩ := mem_ofFamilies (mem_of_canonical? known)
  have member := (List.mem_filter.mp inside).1
  obtain ⟨tag, found⟩ := Option.isSome_iff_exists.mp (lookup_ofFamilies member own spelled)
  have stands : (ofFamilies families).canonical? name = some tag := found
  obtain ⟨other, member', entry', own', spelled', rfl⟩ := mem_ofFamilies (mem_of_canonical? stands)
  rw [stands, agree.same family member entry own _ spelled other member' entry' own' spelled']

/-- A name is known among some of the families if the family is there that owns what it stands for.
-/
theorem canonical?_filter (keep : Family → Bool) (agree : Agree families)
    (apart : Family.Apart families) {family : Family} (member : family ∈ families)
    (own : tag ∈ family.canonicalTags)
    (known : (ofFamilies families).canonical? name = some tag) :
    (ofFamilies (families.filter keep)).canonical? name =
      if keep family then some tag else none := by
  obtain ⟨other, member', entry, listed, spelled, rfl⟩ := mem_ofFamilies (mem_of_canonical? known)
  obtain ⟨canonical, lower⟩ := agree.own other member' entry listed
  have owns : ∀ family : Family, entry.2 ∈ family.canonicalTags → family.owns entry.2 = true := by
    intro family listed
    rwa [Family.owns, lower, List.contains_iff_mem]
  obtain rfl := apart other member' family member _ (owns _ canonical) (owns _ own)
  cases kept : keep other with
  | true =>
    have inside := List.mem_filter.mpr ⟨member', kept⟩
    obtain ⟨tag, found⟩ := Option.isSome_iff_exists.mp (lookup_ofFamilies inside listed spelled)
    have stands : (ofFamilies (families.filter keep)).canonical? name = some tag := found
    rw [if_pos rfl, stands, ← known, canonical?_of_filter agree stands]
  | false =>
    rw [if_neg (by simp)]
    cases stands : (ofFamilies (families.filter keep)).canonical? name with
    | none => rfl
    | some tag =>
      have same := (canonical?_of_filter agree stands).symm.trans known
      obtain ⟨third, inside, entry', listed', _, rfl⟩ := mem_ofFamilies (mem_of_canonical? stands)
      obtain ⟨member'', kept'⟩ := List.mem_filter.mp inside
      have canonical' := (agree.own third member'' entry' listed').1
      rw [Option.some.inj same] at canonical'
      rw [apart third member'' other member' _ (owns _ canonical') (owns _ canonical),
        kept] at kept'
      cases kept'

def knows (table : SpellingTable) (name : Text) : Bool := (table.canonical? name).isSome

/-- Whether a text names no tag of a table. -/
def silent (table : SpellingTable) : Text → Bool
  | [] => true
  | c :: s => !(TagToken.read? (c :: s)).any (fun token => table.knows token.name) && table.silent s

theorem silent_suffix {table : SpellingTable} {a s : Text} (silent : table.silent (a ++ s) = true) :
    table.silent s = true := by
  induction a with
  | nil => exact silent
  | cons c a ih =>
    rw [List.cons_append, SpellingTable.silent, Bool.and_eq_true] at silent
    exact ih silent.2

theorem silent_read {table : SpellingTable} {s : Text} (silent : table.silent s = true)
    {token : TagToken} (read : TagToken.read? s = some token) :
    table.canonical? token.name = none := by
  cases s with
  | nil => cases read
  | cons c s =>
    have quiet := (Bool.and_eq_true_iff.mp silent).1
    simpa [read, knows] using quiet

end SpellingTable

/-- A matcher that has of the names of another those that are in a table. -/
structure Matcher.Narrows (table : SpellingTable) (m m' : Matcher) : Prop where
  plain : ∀ name mode, m.mode? name = some mode → Text.IsPlain name
  mode : ∀ name, m'.mode? name = if table.knows name then m.mode? name else none

namespace Matcher.Narrows

variable {table : SpellingTable} {m m' : Matcher} {s : Text}

theorem knows (narrows : Narrows table m m') {name : Text} {mode : ScanMode}
    (known : m'.mode? name = some mode) :
    table.knows name = true ∧ m.mode? name = some mode := by
  rw [narrows.mode] at known
  cases there : table.knows name with
  | true => exact ⟨rfl, by rwa [there, if_pos rfl] at known⟩
  | false =>
    rw [there] at known
    cases known

theorem plain' (narrows : Narrows table m m') {name : Text} {mode : ScanMode}
    (known : m'.mode? name = some mode) : Text.IsPlain name :=
  narrows.plain _ _ (narrows.knows known).2

/-- Where a text names no tag of the table, the matcher with fewer names finds nothing at its head.
-/
theorem blockAt?_silent (narrows : Narrows table m m') {v : Text} (silent : table.silent v = true)
    (same : OpeningTag.read? s = OpeningTag.read? v) : m'.blockAt? s = none := by
  cases found : m'.blockAt? s with
  | none => rfl
  | some block =>
    obtain ⟨mode, known⟩ := mode?_of_blockAt? found
    obtain ⟨tag, read, matched⟩ := Option.bind_eq_some_iff.mp found
    rw [same, ← blockOf?_tag matched] at read
    have unknown := SpellingTable.silent_read silent (TagToken.read?_of_opening read)
    have there := (narrows.knows known).1
    rw [SpellingTable.knows, Block.name, OpeningTag.key, SpellingTable.canonical?_lower, unknown]
      at there
    cases there

theorem blockAt?_none (narrows : Narrows table m m') (absent : m.blockAt? s = none) :
    m'.blockAt? s = none := by
  cases found : m'.blockAt? s with
  | none => rfl
  | some block =>
    obtain ⟨tag, read, matched⟩ := Option.bind_eq_some_iff.mp found
    obtain ⟨mode, known, _⟩ := Option.map_eq_some_iff.mp matched
    simp [blockAt?, read, blockOf?, (narrows.knows known).2] at absent

theorem blockAt?_known (narrows : Narrows table m m') {block : Block}
    (found : m.blockAt? s = some block) (known : table.knows block.name = true) :
    m'.blockAt? s = some block := by
  obtain ⟨tag, read, matched⟩ := Option.bind_eq_some_iff.mp found
  have mode := narrows.mode block.name
  rw [known, if_pos rfl, Block.name, blockOf?_tag matched] at mode
  rw [blockAt?, read, Option.bind_some, ← matched, blockOf?, blockOf?, mode]

theorem blocks_silent (narrows : Narrows table m m') (silent : table.silent s = true) :
    m'.blocks s = [] := by
  unfold blocks
  induction s using layout_induct m' with
  | nil => rw [layout, Layout.parts]
  | keep c s unread ih =>
    rw [layout_cons unread, Layout.parts_prepend]
    exact ih (SpellingTable.silent_suffix (a := [c]) silent)
  | tag tag s read unknown ih =>
    rw [layout_tag read unknown, Layout.parts_prepend]
    exact ih (SpellingTable.silent_suffix silent)
  | block block s found ih =>
    rw [narrows.blockAt?_silent silent rfl] at found
    cases found

/-- The matcher with fewer names cuts a text at the blocks that it knows, if it finds none in the
others. -/
theorem layout_eq (narrows : Narrows table m m')
    (idle : ∀ block ∈ m.blocks s, table.knows block.name = false →
      m'.blocks block.text = [] ∧ OpeningTag.untorn block.text = true) :
    m'.layout s = (m.layout s).select (fun block => table.knows block.name) Block.text := by
  unfold blocks at idle
  induction s using layout_induct m with
  | nil => rw [layout, layout, Layout.select]
  | keep c s unread ih =>
    rw [layout_cons unread, Layout.parts_prepend] at idle
    rw [layout_cons unread, layout_cons unread, Layout.select_prepend, ih idle]
  | tag tag s read unknown ih =>
    rw [layout_tag read unknown, Layout.parts_prepend] at idle
    have unknown' : m'.mode? tag.key = none := by
      rw [narrows.mode, unknown]
      split <;> rfl
    rw [layout_tag read unknown, layout_tag read unknown', Layout.select_prepend, ih idle]
  | block block s found ih =>
    rw [layout_block found, Layout.parts, List.forall_mem_cons] at idle
    obtain ⟨here, later⟩ := idle
    rw [layout_block found, Layout.select]
    cases known : table.knows block.name with
    | true =>
      rw [layout_block (narrows.blockAt?_known found known), if_pos rfl, ih later]
    | false =>
      obtain ⟨none, whole⟩ := here known
      rw [layout_pass (fun _ _ => narrows.plain') whole none, ih later, if_neg (by simp),
        List.nil_append]

end Matcher.Narrows

def Registry.those (keep : Family → Bool) : Registry := .ofFamilies (Family.builtIn.filter keep)

namespace SpellingTable

open Registry (builtIn those)

variable {keep : Family → Bool} {name tag : Text} {family : Family}

theorem listed_own (own : tag ∈ family.canonicalTags) : (tag, tag) ∈ entriesOf family :=
  List.mem_append_left _ (List.mem_map.mpr ⟨tag, own, rfl⟩)

theorem plain_own (member : family ∈ Family.builtIn) (own : tag ∈ family.canonicalTags) :
    Text.IsPlain tag :=
  Repair.isPlain_of_fits (entries_builtIn family member _ (listed_own own)).1.2.2

theorem owns_own (member : family ∈ Family.builtIn) (own : tag ∈ family.canonicalTags) :
    family.owns tag = true := by
  rwa [Family.owns, Family.builtIn_lowerCase family member tag own, List.contains_iff_mem]

/-- A canonical tag stands for itself. -/
theorem canonical?_own (member : family ∈ Family.builtIn) (own : tag ∈ family.canonicalTags) :
    builtIn.table.canonical? tag = some tag := by
  obtain ⟨⟨_, lower, _⟩, spelled⟩ := entries_builtIn family member _ (listed_own own)
  have self : tag ∈ Spelling.ofTag tag := by
    rw [Spelling.ofTag, List.mem_eraseDups, lower]
    exact List.mem_cons_self
  rw [canonical?, lower]
  exact spelled tag self

theorem knows_own (keep : Family → Bool) (member : family ∈ Family.builtIn)
    (own : tag ∈ family.canonicalTags) :
    (those keep).table.knows tag = keep family := by
  have known := canonical?_filter keep agree_builtIn Family.builtIn_apart member own
    (canonical?_own member own)
  rw [knows, show (those keep).table.canonical? tag = _ from known]
  cases keep family <;> rfl

/-- A rule by which families have some of their canonical tags for names gives some of the families
those of the names that their table knows. -/
theorem mode?_filter {names : List Family → List Text} {rule : Family → Text → Prop}
    {mode : ScanMode}
    (listed : ∀ {families tag}, tag ∈ names families ↔ ∃ family ∈ families, rule family tag)
    (canonical : ∀ family ∈ Family.builtIn, ∀ tag, rule family tag → tag ∈ family.canonicalTags) :
    (if name ∈ (names (Family.builtIn.filter keep)).map Text.lower then some mode else none) =
      if (those keep).table.knows name then
        if name ∈ (names Family.builtIn).map Text.lower then some mode else none
      else none := by
  have same : ∀ families : List Family, (∀ family ∈ families, family ∈ Family.builtIn) →
      (name ∈ (names families).map Text.lower ↔ ∃ family ∈ families, rule family name) := by
    intro families member
    rw [← listed, Text.map_lower]
    intro tag inside
    obtain ⟨family, there, own⟩ := listed.mp inside
    exact Family.builtIn_lowerCase family (member family there) tag
      (canonical family (member family there) tag own)
  have full := same Family.builtIn fun _ member => member
  have some' := same (Family.builtIn.filter keep) fun _ member => (List.mem_filter.mp member).1
  by_cases there : ∃ family ∈ Family.builtIn, rule family name
  · obtain ⟨family, member, own⟩ := there
    have known := knows_own keep member (canonical family member name own)
    rw [known]
    cases kept : keep family with
    | true =>
      rw [if_pos (some'.mpr ⟨family, List.mem_filter.mpr ⟨member, kept⟩, own⟩), if_pos rfl,
        if_pos (full.mpr ⟨family, member, own⟩)]
    | false =>
      rw [if_neg, if_neg (by simp)]
      intro listed'
      obtain ⟨other, inside, own'⟩ := some'.mp listed'
      obtain ⟨member', kept'⟩ := List.mem_filter.mp inside
      have known' := knows_own keep member' (canonical other member' name own')
      rw [known, kept, kept'] at known'
      cases known'
  · rw [if_neg, if_neg fun listed' => there (full.mp listed'), ite_self]
    intro listed'
    obtain ⟨family, inside, own⟩ := some'.mp listed'
    exact there ⟨family, (List.mem_filter.mp inside).1, own⟩

theorem narrows_content : Matcher.Narrows (those keep).table builtIn.table.contentMatcher
    (those keep).table.contentMatcher where
  plain := by
    intro name mode known
    rw [contentMatcher, Matcher.mode?_of] at known
    split at known
    · rename_i listed
      obtain ⟨tag, inside, rfl⟩ := List.mem_map.mp listed
      obtain ⟨family, member, _, own⟩ := mem_contentTags.mp inside
      rw [Family.builtIn_lowerCase family member tag own]
      exact plain_own member own
    · cases known
  mode := by
    intro name
    rw [contentMatcher, contentMatcher, Matcher.mode?_of, Matcher.mode?_of]
    exact @mode?_filter keep name (fun families => (ofFamilies families).contentTags) _ _
      mem_contentTags fun _ _ _ own => own.2

theorem guarded_own : ∀ family ∈ Family.builtIn, ∀ tag ∈ family.guarded,
    tag ∈ family.canonicalTags := by
  decide

theorem narrows_guarded : Matcher.Narrows (those keep).table builtIn.table.guardedMatcher
    (those keep).table.guardedMatcher where
  plain := by
    intro name mode known
    rw [guardedMatcher, Matcher.mode?_addAll, Option.or_eq_some_iff] at known
    rcases known with known | ⟨_, known⟩
    · exact (@narrows_content keep).plain name mode known
    · split at known
      · rename_i listed
        obtain ⟨tag, inside, rfl⟩ := List.mem_map.mp listed
        obtain ⟨family, member, guards⟩ := mem_guardedTags.mp inside
        have own := guarded_own family member tag guards
        rw [Family.builtIn_lowerCase family member tag own]
        exact plain_own member own
      · cases known
  mode := by
    intro name
    have guarded := @mode?_filter keep name (fun families => (ofFamilies families).guardedTags)
      (fun family tag => tag ∈ family.guarded) .structural mem_guardedTags guarded_own
    rw [guardedMatcher, guardedMatcher, Matcher.mode?_addAll, Matcher.mode?_addAll,
      narrows_content.mode]
    refine (congrArg _ guarded).trans ?_
    cases (those keep).table.knows name <;> rfl

theorem isContent_filter (known : (those keep).table.canonical? name = some tag) :
    (those keep).table.isContent tag = builtIn.table.isContent tag := by
  obtain ⟨family, inside, entry, listed, _, rfl⟩ := mem_ofFamilies (mem_of_canonical? known)
  obtain ⟨member, kept⟩ := List.mem_filter.mp inside
  have own := (entries_builtIn family member entry listed).1.1
  rw [Bool.eq_iff_iff, isContent, isContent, List.contains_iff_mem, List.contains_iff_mem]
  refine (mem_contentTags.trans ⟨?_, ?_⟩).trans mem_contentTags.symm
  · rintro ⟨other, inside', both⟩
    exact ⟨other, (List.mem_filter.mp inside').1, both⟩
  · rintro ⟨other, member', bears, own'⟩
    obtain rfl := Family.builtIn_apart other member' family member _ (owns_own member' own')
      (owns_own member own)
    exact ⟨other, inside, bears, own'⟩

theorem mem_anySpelling {families : List Family} :
    name ∈ (((ofFamilies families).entries.filter fun entry =>
      (ofFamilies families).isContent entry.2).map (·.1)).map Text.lower ↔
        Text.lower name = name ∧ ∃ tag, (ofFamilies families).canonical? name = some tag ∧
          (ofFamilies families).isContent tag = true := by
  simp only [List.mem_map, List.mem_filter, Prod.exists]
  constructor
  · rintro ⟨_, ⟨key, tag, ⟨inside, bears⟩, rfl⟩, rfl⟩
    obtain ⟨lower, known⟩ := mem_entries_iff.mp inside
    exact ⟨Text.lower_lower key, tag, by rwa [canonical?_lower], bears⟩
  · rintro ⟨lower, tag, known, bears⟩
    exact ⟨name, ⟨name, tag, ⟨mem_entries_iff.mpr ⟨lower, known⟩, bears⟩, rfl⟩, lower⟩

theorem entries_fit : ∀ entry ∈ builtIn.table.entries, Repair.fits entry.1 = true := by
  decide +kernel

theorem tagName_of_known (known : builtIn.table.canonical? name = some tag) :
    TagName name ∧ TagName tag := by
  have named : ∀ {name : Text}, builtIn.table.canonical? name = some tag → TagName name :=
    fun known => entries_fit _ (mem_of_canonical? known)
  exact ⟨named known, named ((settled_of_sublist (List.Sublist.refl _)).fixed _ _ known)⟩

theorem narrows_anySpelling : Matcher.Narrows (those keep).table builtIn.table.anySpellingMatcher
    (those keep).table.anySpellingMatcher where
  plain := by
    intro name mode known
    rw [anySpellingMatcher, Matcher.mode?_of] at known
    split at known
    · rename_i there
      obtain ⟨lower, tag, stands, _⟩ := mem_anySpelling.mp there
      exact Repair.isPlain_of_fits (entries_fit _ (mem_entries_iff.mpr ⟨lower, stands⟩))
    · cases known
  mode := by
    intro name
    rw [anySpellingMatcher, anySpellingMatcher, Matcher.mode?_of, Matcher.mode?_of]
    cases known : (those keep).table.canonical? name with
    | none =>
      rw [knows, known, if_neg, if_neg (by simp)]
      intro there
      obtain ⟨_, tag, stands, _⟩ := mem_anySpelling.mp there
      exact Option.some_ne_none _ (stands.symm.trans known)
    | some tag =>
      have stands := canonical?_of_filter agree_builtIn known
      have bears := isContent_filter known
      rw [knows, known, Option.isSome_some, if_pos rfl]
      refine if_congr ((mem_anySpelling.trans ?_).trans mem_anySpelling.symm) rfl rfl
      refine and_congr_right fun _ => ⟨?_, ?_⟩
      · rintro ⟨tag', known', content⟩
        obtain rfl := Option.some.inj (known.symm.trans known')
        exact ⟨tag, stands, bears.symm.trans content⟩
      · rintro ⟨tag', known', content⟩
        obtain rfl := Option.some.inj (stands.symm.trans known')
        exact ⟨tag, known, bears.trans content⟩

end SpellingTable

end MarkupActions
