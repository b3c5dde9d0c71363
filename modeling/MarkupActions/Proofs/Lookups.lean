import MarkupActions.Proofs.Layouts
import MarkupActions.Proofs.Tables
import MarkupActions.Registry.Cached

/-!
# What lookups find

A registry with a cache is held against one that has none and asks its families again at every step.
`replay` runs the latter: no table occurs in it. The two answer every sequence of steps alike, since
a table that is kept is always that of the families there are.
-/

namespace MarkupActions

namespace Spelling

variable {tag spelling : Text}

theorem lower_swap {old new : Char} (s : Text) (lower : new.toLower = new) :
    Text.lower (swap old new (Text.lower s)) = swap old new (Text.lower s) := by
  rw [Text.lower, swap, Text.lower, List.map_map, List.map_map, List.map_map]
  refine List.map_congr_left fun c _ => ?_
  by_cases replaced : c.toLower = old
  · simp [replaced, lower]
  · simp only [Function.comp_apply, replaced, if_false, Text.toLower_toLower]

/-- Spellings are in lower case. -/
theorem lower_of_mem_ofTag (spelled : spelling ∈ ofTag tag) : Text.lower spelling = spelling := by
  rw [ofTag, List.mem_eraseDups] at spelled
  simp only [List.mem_cons, List.not_mem_nil, or_false] at spelled
  rcases spelled with rfl | rfl | rfl
  · exact Text.lower_lower tag
  · exact lower_swap tag (by decide)
  · exact lower_swap tag (by decide)

end Spelling

namespace SpellingTable

variable {families : List Family} {entries : List (Text × Text)} {names : List (Text × Text)}
  {key value name tag : Text}

/-- A table of some families tells what the families themselves tell. -/
theorem canonical?_ofFamilies (families : List Family) (name : Text) :
    (ofFamilies families).canonical? name = earliest? families name := by
  rw [canonical?, ofFamilies, entries_foldl, lookup_foldl_insert, earliest?]
  rfl

/-- Whether every entry is the one that a lookup of its spelling finds. -/
def Distinct (entries : List (Text × Text)) : Prop :=
  ∀ entry ∈ entries, entries.lookup entry.1 = some entry.2

theorem Distinct.enter (distinct : Distinct entries) (tag spelling : Text) :
    Distinct (enter tag entries spelling) := by
  unfold SpellingTable.enter
  split
  · exact distinct
  · rename_i free
    rintro entry inside
    rw [List.lookup_append]
    rcases List.mem_append.mp inside with before | last
    · rw [distinct entry before, Option.some_or]
    · obtain rfl := List.mem_singleton.mp last
      rw [Option.not_isSome_iff_eq_none.mp free]
      simp

theorem Distinct.foldl_insert (distinct : Distinct entries) (names : List (Text × Text)) :
    Distinct (names.foldl insert entries) := by
  have spelled : ∀ (tag : Text) (spellings : List Text) (entries : List (Text × Text)),
    Distinct entries →
      Distinct (spellings.foldl (SpellingTable.enter tag) entries) := by
    intro tag spellings
    induction spellings with
    | nil => exact fun _ distinct => distinct
    | cons spelling spellings ih => exact fun _ distinct => ih _ (distinct.enter tag spelling)
  induction names generalizing entries with
  | nil => exact distinct
  | cons name names ih => exact ih (spelled name.2 (Spelling.ofTag name.1) entries distinct)

/-- An entry of a table is what its spelling stands for. -/
theorem mem_entries_iff :
    (key, value) ∈ (ofFamilies families).entries ↔
      Text.lower key = key ∧ (ofFamilies families).canonical? key = some value := by
  constructor
  · intro inside
    obtain ⟨_, _, _, _, spelled, _⟩ := mem_ofFamilies inside
    have lower := Spelling.lower_of_mem_ofTag spelled
    have distinct : Distinct (ofFamilies families).entries := by
      rw [ofFamilies, entries_foldl]
      exact Distinct.foldl_insert (fun _ inside => (List.not_mem_nil inside).elim) _
    refine ⟨lower, ?_⟩
    rw [canonical?, lower]
    exact distinct _ inside
  · rintro ⟨lower, known⟩
    have inside := mem_of_canonical? known
    rwa [lower] at inside

theorem guardedTags_foldl (families : List Family) (table : SpellingTable) :
    (families.foldl add table).guardedTags = table.guardedTags ++ families.flatMap (·.guarded) := by
  induction families generalizing table with
  | nil => simp
  | cons family families ih => simp [ih, add]

theorem mem_guardedTags : tag ∈ (ofFamilies families).guardedTags ↔
    ∃ family ∈ families, tag ∈ family.guarded := by
  rw [ofFamilies, guardedTags_foldl]
  simp

end SpellingTable

namespace NameReport

open SpellingTable (earliest?)

/-- What families themselves say of a name, without a table. -/
def ofFamilies (families : List Family) (name : Text) : NameReport :=
  let content := families.any fun family =>
    family.bearsContent && family.canonicalTags.any (Text.lower · == Text.lower name)
  { canonical := earliest? families name
    content
    guarded := content || families.any fun family =>
      family.guarded.any (Text.lower · == Text.lower name)
    anySpelling := (earliest? families name).any fun tag =>
      families.any fun family => family.bearsContent && family.canonicalTags.contains tag }

end NameReport

namespace SpellingTable

variable {families : List Family} {m : Matcher} {name tag : Text}

theorem contains_of_iff {mode : ScanMode} {tags : List Text} :
    (Matcher.of mode tags).contains name = true ↔
    ∃ tag ∈ tags, Text.lower tag = Text.lower name := by
  rw [Matcher.contains, Matcher.mode?_of]
  rw [← List.mem_map]
  split
  · rename_i listed
    exact iff_of_true rfl listed
  · rename_i free
    exact iff_of_false Bool.false_ne_true free

theorem contains_addAll {mode : ScanMode} {tags : List Text} :
    (m.addAll tags mode).contains name =
    (m.contains name || (Matcher.of mode tags).contains name) := by
  rw [Matcher.contains, Matcher.mode?_addAll, Option.isSome_or, Matcher.contains, Matcher.contains,
    Matcher.mode?_of]

theorem isContent_ofFamilies :
    (ofFamilies families).isContent tag =
      families.any fun family => family.bearsContent && family.canonicalTags.contains tag := by
  rw [Bool.eq_iff_iff, isContent, List.contains_iff_mem, mem_contentTags, List.any_eq_true]
  simp only [Bool.and_eq_true, List.contains_iff_mem]

theorem content_ofFamilies :
    (ofFamilies families).contentMatcher.contains name =
    (NameReport.ofFamilies families name).content := by
  rw [Bool.eq_iff_iff, contentMatcher, contains_of_iff, NameReport.ofFamilies, List.any_eq_true]
  simp only [mem_contentTags, Bool.and_eq_true, List.any_eq_true, beq_iff_eq]
  constructor
  · rintro ⟨tag, ⟨family, member, bears, listed⟩, same⟩
    exact ⟨family, member, bears, tag, listed, same⟩
  · rintro ⟨family, member, bears, tag, listed, same⟩
    exact ⟨tag, ⟨family, member, bears, listed⟩, same⟩

theorem guarded_ofFamilies :
    (ofFamilies families).guardedMatcher.contains name =
    (NameReport.ofFamilies families name).guarded := by
  rw [guardedMatcher, contains_addAll, content_ofFamilies, NameReport.ofFamilies]
  congr 1
  rw [Bool.eq_iff_iff, contains_of_iff, List.any_eq_true]
  simp only [mem_guardedTags, List.any_eq_true, beq_iff_eq]
  constructor
  · rintro ⟨tag, ⟨family, member, listed⟩, same⟩
    exact ⟨family, member, tag, listed, same⟩
  · rintro ⟨family, member, tag, listed, same⟩
    exact ⟨tag, ⟨family, member, listed⟩, same⟩

theorem anySpelling_ofFamilies :
    (ofFamilies families).anySpellingMatcher.contains name =
    (NameReport.ofFamilies families name).anySpelling := by
  have lowered : (ofFamilies families).canonical? (Text.lower name) =
    (ofFamilies families).canonical? name := by
    rw [canonical?, canonical?, Text.lower_lower]
  rw [Bool.eq_iff_iff, anySpellingMatcher, contains_of_iff, NameReport.ofFamilies,
    ← canonical?_ofFamilies, ← lowered, Option.any_eq_true]
  simp only [← isContent_ofFamilies, List.mem_map, List.mem_filter]
  constructor
  · rintro ⟨_, ⟨⟨key, tag⟩, ⟨inside, bears⟩, rfl⟩, same⟩
    obtain ⟨lower, known⟩ := mem_entries_iff.mp inside
    rw [← same, lower]
    exact ⟨tag, known, bears⟩
  · rintro ⟨tag, known, bears⟩
    exact ⟨Text.lower name, ⟨(Text.lower name, tag),
      ⟨mem_entries_iff.mpr ⟨Text.lower_lower name, known⟩, bears⟩, rfl⟩, Text.lower_lower name⟩

/-- All that a table of some families tells of a name, the families themselves tell. -/
theorem report_ofFamilies (families : List Family) (name : Text) :
    (ofFamilies families).report name = NameReport.ofFamilies families name := by
  rw [report, canonical?_ofFamilies, content_ofFamilies, guarded_ofFamilies, anySpelling_ofFamilies]
  rfl

end SpellingTable

/-- The tag that a name stands for among some families, or the name itself. -/
def Family.standsFor (families : List Family) (name : Text) : Text :=
  (SpellingTable.earliest? families name).getD (Text.lower name)

namespace RegistryStep

/-- What a step is answered with if the families themselves are asked, and the families after it. -/
def replay (families : List Family) : RegistryStep → RegistryAnswer × List Family
  | .register family => (.registered, families ++ [family])
  | .unregister tags =>
    let rest := families.filter fun family =>
      !(tags.map (Family.standsFor families)).any family.owns
    (.removed (families.length - rest.length), rest)
  | .lookup name => (.found (.ofFamilies families name), families)

/-- What steps one after the other are answered with if the families themselves are asked. -/
def replayAll (families : List Family) : List RegistryStep → List RegistryAnswer × List Family
  | [] => ([], families)
  | first :: steps =>
    let (answer, families) := first.replay families
    let (answers, families) := replayAll families steps
    (answer :: answers, families)

end RegistryStep

namespace CachedRegistry

variable {registry : CachedRegistry}

/-- Whether a table that is kept is that of the families there are. -/
def Fresh (registry : CachedRegistry) : Prop :=
  ∀ table, registry.kept = some table → table = .ofFamilies registry.families

theorem fresh_of_none (families : List Family) : Fresh ⟨families, none⟩ :=
  fun _ kept => nomatch kept

/-- The table that is asked, kept or not, is the one that would be made anew. -/
theorem Fresh.table_eq (fresh : registry.Fresh) :
    registry.table = .ofFamilies registry.families := by
  cases kept : registry.kept with
  | none => simp [table, kept]
  | some table => simp [CachedRegistry.table, kept, fresh table kept]

theorem Fresh.filled (fresh : registry.Fresh) : registry.filled.Fresh := by
  intro table kept
  rw [← Option.some.inj kept, fresh.table_eq]
  rfl

theorem Fresh.target_eq (fresh : registry.Fresh) (name : Text) :
    registry.target name = Family.standsFor registry.families name := by
  rw [target, fresh.table_eq, SpellingTable.canonical?_ofFamilies, Family.standsFor]

/-- The table is kept only where the families stay as they are: a filter that takes none out changes
nothing. -/
theorem filter_of_length_sub {keep : Family → Bool} {families : List Family}
    (none : families.length - (families.filter keep).length = 0) :
    families.filter keep = families :=
  List.filter_sublist.eq_of_length_le (Nat.sub_eq_zero_iff_le.mp none)

theorem Fresh.unregister (fresh : registry.Fresh) (tags : List Text) :
    (registry.unregister tags).2.Fresh ∧
      (RegistryAnswer.removed (registry.unregister tags).1, (registry.unregister tags).2.families) =
        (RegistryStep.unregister tags).replay registry.families := by
  have targets : tags.map registry.target = tags.map (Family.standsFor registry.families) :=
    List.map_congr_left fun name _ => fresh.target_eq name
  have asked : (if tags.isEmpty then registry else registry.filled).Fresh := by
    split
    · exact fresh
    · exact fresh.filled
  have askedFamilies : (if tags.isEmpty then registry else registry.filled).families =
    registry.families := by
    split <;> rfl
  unfold CachedRegistry.unregister RegistryStep.replay
  simp only [targets]
  split
  · rename_i none
    exact ⟨asked, by rw [askedFamilies, filter_of_length_sub none]⟩
  · exact ⟨fresh_of_none _, rfl⟩

/-- One step keeps the table fresh and does what it does without one. -/
theorem Fresh.step (fresh : registry.Fresh) (step : RegistryStep) :
    (registry.step step).2.Fresh ∧
      ((registry.step step).1, (registry.step step).2.families) =
      step.replay registry.families := by
  cases step with
  | register family => exact ⟨fresh_of_none _, rfl⟩
  | unregister tags => exact fresh.unregister tags
  | lookup name =>
    refine ⟨fresh.filled, ?_⟩
    have report : registry.table.report name = .ofFamilies registry.families name := by
      rw [fresh.table_eq, SpellingTable.report_ofFamilies]
    exact congrArg (fun report => (RegistryAnswer.found report, registry.families)) report

/-- Steps one after the other keep a table fresh, and are answered as the families themselves would
answer. -/
theorem Fresh.run (fresh : registry.Fresh) (steps : List RegistryStep) :
    (registry.run steps).2.Fresh ∧
      ((registry.run steps).1, (registry.run steps).2.families) =
      RegistryStep.replayAll registry.families steps := by
  induction steps generalizing registry with
  | nil => exact ⟨fresh, rfl⟩
  | cons first steps ih =>
    obtain ⟨freshNext, same⟩ := fresh.step first
    obtain ⟨freshLast, rest⟩ := ih freshNext
    refine ⟨freshLast, ?_⟩
    rw [RegistryStep.replayAll, ← same]
    simp only
    rw [← rest]
    rfl

theorem foldl_register (before families : List Family) :
    families.foldl register ⟨before, none⟩ = ⟨before ++ families, none⟩ := by
  induction families generalizing before with
  | nil => rw [List.append_nil]; rfl
  | cons family families ih => rw [List.foldl_cons, register, ih, List.append_assoc]; rfl

/-- An entry that another one shadows comes to light once the other is gone, though the table was
asked before. -/
example :
    let read : Family := { tags := names ["read"], extract := fun _ _ => [] }
    let cat : Family :=
      { tags := names ["view"], aliases := aliasesOf "view" ["read"], extract := fun _ _ => [] }
    ((ofFamilies [read, cat]).run [.lookup "read".toList, .unregister (names ["read"]),
      .lookup "Read".toList]).1 =
      [.found ⟨some "read".toList, false, false, false⟩, .removed 1,
        .found ⟨some "view".toList, false, false, false⟩] := by
  decide

end CachedRegistry

end MarkupActions
