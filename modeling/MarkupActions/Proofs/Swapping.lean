import MarkupActions.Proofs.Mending
import MarkupActions.Proofs.Reading
import MarkupActions.Proofs.Retiring

/-!
# Families that may change places

All that a registry takes from its table are lookups of names and of tags, so two tables of which
these are alike read every text alike. Two neighbours that only read, and share no spelling, leave
the table alike in either order, and their actions stand next to each other.
-/

namespace MarkupActions

namespace Matcher

variable {m m' : Matcher}

theorem layout_eq (same : ∀ name, m'.mode? name = m.mode? name) (s : Text) :
    m'.layout s = m.layout s :=
  layout_congr (fun block _ => same block.name) fun name none => (same name).trans none

theorem blockAt?_eq (same : ∀ name, m'.mode? name = m.mode? name) (s : Text) :
    m'.blockAt? s = m.blockAt? s := by
  unfold blockAt? blockOf?
  simp only [same]

/-- The order in which names are added in one mode is of no consequence. -/
theorem mode?_addAll_congr {mode : ScanMode} {names names' : List Text}
    (same : ∀ name, m'.mode? name = m.mode? name)
    (listed : ∀ name, name ∈ names' ↔ name ∈ names) (name : Text) :
    (m'.addAll names' mode).mode? name = (m.addAll names mode).mode? name := by
  rw [mode?_addAll, mode?_addAll, same]
  refine congrArg _ (if_congr ?_ rfl rfl)
  simp only [List.mem_map, listed]

end Matcher

namespace Inert

/-- What stripping takes out hangs on the names that are guarded, not on their order. -/
theorem strip_eq {guarded guarded' : Matcher}
    (same : ∀ name, guarded'.mode? name = guarded.mode? name)
    (lineStart : Bool) (s : Text) : strip guarded' lineStart s = strip guarded lineStart s := by
  induction lineStart, s using strip.induct guarded with
  | case1 => rw [strip, strip]
  | case2 lineStart c s n region ih => simp only [strip, region, ih]
  | case3 lineStart c s region block found ih =>
    simp only [strip, region, Matcher.blockAt?_eq same, found, ih]
  | case4 lineStart c s region none n ih =>
    simp only [strip, region, Matcher.blockAt?_eq same, none, ih, n]

end Inert

namespace SpellingTable

structure Alike (table table' : SpellingTable) : Prop where
  canonical : ∀ name, table'.canonical? name = table.canonical? name
  isContent : ∀ tag, table'.isContent tag = table.isContent tag
  content : ∀ name, table'.contentMatcher.mode? name = table.contentMatcher.mode? name
  anySpelling : ∀ name, table'.anySpellingMatcher.mode? name = table.anySpellingMatcher.mode? name
  guarded : ∀ name, table'.guardedMatcher.mode? name = table.guardedMatcher.mode? name

namespace Alike

variable {table table' : SpellingTable}

theorem closes?_eq (alike : Alike table table') (tag s : Text) :
    table'.closes? tag s = table.closes? tag s := by
  unfold closes?
  simp only [alike.canonical]

theorem rename_eq (alike : Alike table table') (s : Text) : table'.rename s = table.rename s := by
  have closes : ∀ tag, table'.closes? tag = table.closes? tag :=
    fun tag => funext (alike.closes?_eq tag)
  induction s using rename.induct table with
  | case1 => rw [rename, rename]
  | case2 c s none ih => rw [rename, rename]; simp only [none, ih]
  | case3 c s token read unknown ih =>
    rw [rename, rename]; simp only [read, alike.canonical, unknown, ih]
  | case4 c s token read tag known rest plain ih =>
    rw [rename, rename]
    simp only [rest] at plain ih
    simp only [read, alike.canonical, known, alike.isContent, plain, if_true, ih]
  | case5 c s token read tag known rest opens unclosed ih =>
    rw [rename, rename]
    simp only [rest] at opens unclosed ih
    simp only [read, alike.canonical, known, alike.isContent, opens, closes, unclosed, ih]
  | case6 c s token read tag known rest opens pos n closed ih =>
    rw [rename, rename]
    simp only [rest] at opens closed ih
    simp only [read, alike.canonical, known, alike.isContent, opens, closes, closed,
      Bool.false_eq_true, if_false, ih]

theorem mendWith_eq (alike : Alike table table') :
    Registry.mendWith table' = Registry.mendWith table := by
  funext s family
  simp only [Registry.mendWith, alike.canonical, Matcher.layout_eq alike.anySpelling]

end Alike

/-- The order of the families decides what names stand for, and nothing else that a table tells. -/
theorem alike_of_perm {families families' : List Family} (perm : families'.Perm families)
    (canonical : ∀ name, (ofFamilies families').canonical? name =
      (ofFamilies families).canonical? name) :
    Alike (ofFamilies families) (ofFamilies families') := by
  have isContent : ∀ tag, (ofFamilies families').isContent tag =
    (ofFamilies families).isContent tag := by
    intro tag
    rw [isContent_ofFamilies, isContent_ofFamilies]
    exact perm.any_eq
  have contentTags : ∀ tag, tag ∈ (ofFamilies families').contentTags ↔
    tag ∈ (ofFamilies families).contentTags := by
    simp only [mem_contentTags, perm.mem_iff, implies_true]
  have content : ∀ name, (ofFamilies families').contentMatcher.mode? name =
      (ofFamilies families).contentMatcher.mode? name :=
        Matcher.mode?_addAll_congr (fun _ => rfl) contentTags
  refine ⟨canonical, isContent, content, Matcher.mode?_addAll_congr (fun _ => rfl) fun spelling =>
    ?_, Matcher.mode?_addAll_congr content fun tag => ?_⟩
  · simp only [List.mem_map, List.mem_filter, isContent, Prod.exists, mem_entries_iff, canonical]
  · rw [mem_guardedTags, mem_guardedTags]
    simp only [perm.mem_iff]

end SpellingTable

namespace Family

open SpellingTable (earliest?)

variable {first second : Family} {front back : List Family}

/-- Whether a family does nothing but read: it bears no content, mends nothing and takes nothing
out. -/
structure OnlyReads (family : Family) : Prop where
  structural : family.bearsContent = false
  repairs : family.repairs = []
  retired : family.retired = []

theorem earliest?_append (families families' : List Family) (name : Text) :
    earliest? (families ++ families') name = (earliest? families name).or
      (earliest? families' name) := by
  rw [earliest?, List.flatMap_append, List.find?_append, Option.map_or, earliest?, earliest?]

/-- Neighbours that share no spelling may change places: only one of them knows the name. -/
theorem earliest?_swapped (apart : first.spellings.Disjoint second.spellings) (name : Text) :
    earliest? (front ++ second :: first :: back) name = earliest?
      (front ++ first :: second :: back) name := by
  have cut : ∀ a b, earliest? (front ++ a :: b :: back) name =
      (earliest? front name).or ((earliest? [a] name).or
        ((earliest? [b] name).or (earliest? back name))) := by
    intro a b
    rw [← earliest?_append [b], ← earliest?_append [a], ← earliest?_append front]
    rfl
  have alone : ∀ family, family.knows name = false → earliest? [family] name = none :=
    fun family unknown => earliest?_eq_none.mpr (by simpa using unknown)
  rw [cut, cut]
  by_cases known : Text.lower name ∈ first.spellings
  · rw [alone second (by simpa [knows] using fun shared => apart known shared), Option.none_or,
      Option.none_or]
  · rw [alone first (by simpa [knows] using known), Option.none_or, Option.none_or]

end Family

namespace Registry

variable {first second : Family} {front back : List Family}

theorem readInTurn_append (screening : Screening) (families families' : List Family) (s : Text) :
    readInTurn screening (families ++ families') s = readInTurn screening families s ++
      readInTurn screening families' (families.foldl (fun s family => family.retire s) s) := by
  induction families generalizing s with
  | nil => rfl
  | cons family families ih =>
    rw [List.cons_append, readInTurn, readInTurn, ih, List.append_assoc, List.foldl_cons]

/-- A family without repairs mends nothing, whatever the table. -/
theorem mendWith_onlyReads {table : SpellingTable} {family : Family} (reads : family.OnlyReads)
    (s : Text) :
    mendWith table s family = s := by
  simp [mendWith, reads.repairs]

theorem working_swapped (reads : first.OnlyReads) (reads' : second.OnlyReads)
    {families families' : List Family}
    (order : families = front ++ first :: second :: back)
    (order' : families' = front ++ second :: first :: back)
    (alike : SpellingTable.Alike (.ofFamilies families) (.ofFamilies families')) (s : Text) :
    (ofFamilies families').working s = (ofFamilies families).working s := by
  have mended : (ofFamilies families').mend s = (ofFamilies families).mend s := by
    have same : mendWith (ofFamilies families').table = mendWith (ofFamilies families).table :=
      alike.mendWith_eq
    have left : (ofFamilies families').families = front ++ second :: first :: back := order'
    have right : (ofFamilies families).families = front ++ first :: second :: back := order
    simp only [mend, same, left, right, List.foldl_append, List.foldl_cons,
      mendWith_onlyReads reads, mendWith_onlyReads reads']
  simp only [working, normalize, mended]
  exact (Inert.strip_eq alike.guarded true _).trans (congrArg _ (alike.rename_eq _))

/-- Families that only read are not asked for content. -/
theorem contentFamilies_pair (reads : first.OnlyReads) (reads' : second.OnlyReads) :
    (ofFamilies (front ++ first :: second :: back)).contentFamilies =
      front.filter (·.bearsContent) ++ back.filter (·.bearsContent) := by
  simp [contentFamilies, ofFamilies, List.filter_append, reads.structural, reads'.structural]

theorem structuralFamilies_pair (reads : first.OnlyReads) (reads' : second.OnlyReads) :
    (ofFamilies (front ++ first :: second :: back)).structuralFamilies =
      front.filter (!·.bearsContent) ++ first :: second :: back.filter (!·.bearsContent) := by
  simp [structuralFamilies, ofFamilies, List.filter_append, reads.structural, reads'.structural]

/-- Two neighbours that only read and share no spelling may change places: the tables tell the same
of every name, and of every text the same actions are read, but that the actions of the one now
stand in front of those of the other. -/
theorem extract_swapped (reads : first.OnlyReads) (reads' : second.OnlyReads)
    (apart : first.spellings.Disjoint second.spellings) :
    let registry := ofFamilies (front ++ first :: second :: back)
    let swapped := ofFamilies (front ++ second :: first :: back)
    registry.table.Alike swapped.table ∧ ∀ (screening : Screening) (text : Text), ∃ s before after,
      registry.extract screening text =
        before ++ (first.extract screening s ++ (second.extract screening s ++ after)) ∧
      swapped.extract screening text =
        before ++ (second.extract screening s ++ (first.extract screening s ++ after)) := by
  intro registry swapped
  have alike : registry.table.Alike swapped.table := by
    refine SpellingTable.alike_of_perm ((List.Perm.swap first second back).append_left front)
      fun name => ?_
    rw [SpellingTable.canonical?_ofFamilies, SpellingTable.canonical?_ofFamilies,
      Family.earliest?_swapped apart]
  refine ⟨alike, fun screening text => ?_⟩
  have working : swapped.working text = registry.working text :=
    working_swapped reads reads' rfl rfl alike text
  have layout := Matcher.layout_eq alike.content (registry.working text)
  unfold extract readWorking
  rw [working, layout, contentFamilies_pair reads reads', contentFamilies_pair reads' reads,
    structuralFamilies_pair reads reads', structuralFamilies_pair reads' reads]
  simp only [readInTurn_append, readInTurn, Family.retire_of_nil reads.retired,
    Family.retire_of_nil reads'.retired, ← List.append_assoc]
  exact ⟨_, _, _, rfl, rfl⟩

/-- Commands and notifications without repairs, between messages and plans. -/
theorem extract_swapped_bash :
    let shell : Family := { Family.bash with repairs := [] }
    let notify : Family := { Family.notify with repairs := [] }
    let registry := ofFamilies [Family.say, shell, notify, Family.plan]
    let swapped := ofFamilies [Family.say, notify, shell, Family.plan]
    (shell.OnlyReads ∧ notify.OnlyReads ∧ shell.spellings.Disjoint notify.spellings) ∧
      registry.table.Alike swapped.table ∧
        ∀ (screening : Screening) (text : Text), ∃ s before after,
        registry.extract screening text =
          before ++ (shell.extract screening s ++ (notify.extract screening s ++ after)) ∧
        swapped.extract screening text =
          before ++ (notify.extract screening s ++ (shell.extract screening s ++ after)) := by
  intro shell notify registry swapped
  have reads : shell.OnlyReads := ⟨rfl, rfl, rfl⟩
  have reads' : notify.OnlyReads := ⟨rfl, rfl, rfl⟩
  have apart : shell.spellings.Disjoint notify.spellings := List.disjoint_left.mpr (by decide)
  exact ⟨⟨reads, reads', apart⟩, @extract_swapped shell notify [Family.say] [Family.plan] reads
    reads' apart⟩

end Registry

end MarkupActions
