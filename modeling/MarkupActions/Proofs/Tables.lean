import MarkupActions.Proofs.Renaming
import MarkupActions.Registry.Basic

/-!
# What a table holds

A table is made of the names of its families, one after the other. Every entry comes from one of
these names, and every spelling of a name has an entry, be it that of a name before it.
-/

namespace MarkupActions.SpellingTable

variable {entries : List (Text × Text)} {spellings : List Text} {names : List (Text × Text)}
    {key value tag : Text}

theorem mem_foldl_enter (inside : (key, value) ∈ spellings.foldl (enter tag) entries) :
    (key, value) ∈ entries ∨ key ∈ spellings ∧ value = tag := by
  induction spellings generalizing entries with
  | nil => exact .inl inside
  | cons spelling spellings ih =>
    rcases ih inside with there | ⟨later, same⟩
    · unfold enter at there
      split at there
      · exact .inl there
      · rcases List.mem_append.mp there with before | last
        · exact .inl before
        · obtain ⟨rfl, rfl⟩ := Prod.mk.inj (List.mem_singleton.mp last)
          exact .inr ⟨List.mem_cons_self, rfl⟩
    · exact .inr ⟨List.mem_cons_of_mem _ later, same⟩

/-- Every entry comes from one of the names. -/
theorem mem_foldl_insert (inside : (key, value) ∈ names.foldl insert entries) :
    (key, value) ∈ entries ∨ ∃ name ∈ names, key ∈ Spelling.ofTag name.1 ∧ value = name.2 := by
  induction names generalizing entries with
  | nil => exact .inl inside
  | cons name names ih =>
    rcases ih inside with there | ⟨other, later, spelled⟩
    · rcases mem_foldl_enter there with before | spelled
      · exact .inl before
      · exact .inr ⟨name, List.mem_cons_self, spelled⟩
    · exact .inr ⟨other, List.mem_cons_of_mem _ later, spelled⟩

/-- A spelling is looked up as before; only where it had no entry it may have one now. -/
theorem lookup_enter (tag spelling : Text) :
    (enter tag entries spelling).lookup key =
      (entries.lookup key).or (if key = spelling then some tag else none) := by
  unfold enter
  split
  · rename_i taken
    by_cases same : key = spelling
    · subst same
      obtain ⟨value, known⟩ := Option.isSome_iff_exists.mp taken
      simp [known]
    · simp [same]
  · rw [List.lookup_append]
    by_cases same : key = spelling
    · simp [same]
    · simp [same, List.lookup_cons, beq_eq_false_iff_ne.mpr same]

theorem lookup_foldl_enter (tag : Text) :
    (spellings.foldl (enter tag) entries).lookup key =
      (entries.lookup key).or (if key ∈ spellings then some tag else none) := by
  induction spellings generalizing entries with
  | nil => simp
  | cons spelling spellings ih =>
    rw [List.foldl_cons, ih, lookup_enter, Option.or_assoc]
    congr 1
    by_cases same : key = spelling <;> simp [same]

/-- What a spelling stands for: what it stood for before, or else the first of the names that may be
written so. -/
theorem lookup_foldl_insert :
    (names.foldl insert entries).lookup key =
      (entries.lookup key).or ((names.find? fun name => (Spelling.ofTag name.1).contains key).map
        (·.2)) := by
  induction names generalizing entries with
  | nil => simp
  | cons name names ih =>
    rw [List.foldl_cons, ih, insert, lookup_foldl_enter, Option.or_assoc, List.find?_cons]
    congr 1
    by_cases spelled : key ∈ Spelling.ofTag name.1 <;> simp [spelled]

theorem entries_foldl (families : List Family) (table : SpellingTable) :
    (families.foldl add table).entries =
    (families.flatMap entriesOf).foldl insert table.entries := by
  induction families generalizing table with
  | nil => rfl
  | cons family families ih => rw [List.foldl_cons, ih, List.flatMap_cons, List.foldl_append, add]

theorem mem_ofFamilies {families : List Family}
    (inside : (key, value) ∈ (ofFamilies families).entries) :
    ∃ family ∈ families, ∃ name ∈ entriesOf family, key ∈ Spelling.ofTag name.1 ∧
      value = name.2 := by
  rw [ofFamilies, entries_foldl] at inside
  rcases mem_foldl_insert inside with none | ⟨name, listed, spelled⟩
  · cases none
  · obtain ⟨family, member, own⟩ := List.mem_flatMap.mp listed
    exact ⟨family, member, name, own, spelled⟩

theorem lookup_ofFamilies {families : List Family} {family : Family} (member : family ∈ families)
    {name : Text × Text} (own : name ∈ entriesOf family) (spelled : key ∈ Spelling.ofTag name.1) :
    ((ofFamilies families).entries.lookup key).isSome = true := by
  rw [ofFamilies, entries_foldl, lookup_foldl_insert, List.lookup_nil, Option.none_or,
    Option.isSome_map, List.find?_isSome]
  exact ⟨name, List.mem_flatMap.mpr ⟨family, member, own⟩, List.contains_iff_mem.mpr spelled⟩

/-- Whether the families agree on what each of their names stands for, and whether that is a tag of
the same family. -/
structure Agree (families : List Family) : Prop where
  same : ∀ family ∈ families, ∀ name ∈ entriesOf family, ∀ spelling ∈ Spelling.ofTag name.1,
    ∀ other ∈ families, ∀ name' ∈ entriesOf other, spelling ∈ Spelling.ofTag name'.1 →
      name'.2 = name.2
  own : ∀ family ∈ families, ∀ name ∈ entriesOf family,
    name.2 ∈ family.canonicalTags ∧ Text.lower name.2 = name.2

/-- What families agree on, some of them agree on. -/
theorem Agree.sublist {families rest : List Family} (agree : Agree families)
    (less : rest.Sublist families) :
    Agree rest where
  same := fun family member name own spelling spelled other member' =>
    agree.same family (less.subset member) name own spelling spelled other (less.subset member')
  own := fun family member => agree.own family (less.subset member)

/-- Where families agree, a tag that a name stands for stands for itself. -/
theorem Agree.fixed {families : List Family} (agree : Agree families) {name tag : Text}
    (known : (ofFamilies families).canonical? name = some tag) :
    (ofFamilies families).canonical? tag = some tag := by
  obtain ⟨family, member, entry, listed, _, rfl⟩ := mem_ofFamilies (mem_of_canonical? known)
  obtain ⟨canonical, lower⟩ := agree.own family member entry listed
  have self : (entry.2, entry.2) ∈ entriesOf family :=
    List.mem_append_left _ (List.mem_map.mpr ⟨entry.2, canonical, rfl⟩)
  have spelled : entry.2 ∈ Spelling.ofTag entry.2 := by
    rw [Spelling.ofTag, List.mem_eraseDups, lower]
    exact List.mem_cons_self
  obtain ⟨tag, found⟩ := Option.isSome_iff_exists.mp (lookup_ofFamilies member self spelled)
  have stands : (ofFamilies families).canonical? entry.2 = some tag := by
    rw [canonical?, lower, found]
  obtain ⟨other, member', entry', listed', spelled', rfl⟩ :=
    mem_ofFamilies (mem_of_canonical? stands)
  rw [lower] at spelled'
  rw [stands, agree.same family member _ self entry.2 spelled other member' entry' listed' spelled']

theorem contentTags_foldl (families : List Family) (table : SpellingTable) :
    (families.foldl add table).contentTags =
      table.contentTags ++ families.flatMap fun family =>
        if family.bearsContent then family.canonicalTags else [] := by
  induction families generalizing table with
  | nil => simp
  | cons family families ih => simp [ih, add]

theorem mem_contentTags {families : List Family} {tag : Text} :
    tag ∈ (ofFamilies families).contentTags ↔
      ∃ family ∈ families, family.bearsContent = true ∧ tag ∈ family.canonicalTags := by
  rw [ofFamilies, contentTags_foldl]
  simp only [List.nil_append, List.mem_flatMap]
  constructor
  · rintro ⟨family, inside, listed⟩
    by_cases bears : family.bearsContent
    · exact ⟨family, inside, bears, by simpa [bears] using listed⟩
    · simp [bears] at listed
  · rintro ⟨family, inside, bears, listed⟩
    exact ⟨family, inside, by simpa [bears] using listed⟩

end MarkupActions.SpellingTable
