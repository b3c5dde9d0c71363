import MarkupActions.Registry.Basic

/-!
# Registries that keep their table

A table is made when a name is first looked up, and kept for the lookups after it until a family
comes or goes. So what a lookup finds hangs on the steps before it: whether they have left a table,
and of which families.
-/

namespace MarkupActions

/-- Families in the order of their registration, with the table that was last made of them, if it is
still kept. -/
structure CachedRegistry where
  families : List Family
  kept : Option SpellingTable := none

structure NameReport where
  canonical : Option Text
  /-- Whether blocks of that name bear content. -/
  content : Bool
  /-- Whether they keep their code marks. -/
  guarded : Bool
  /-- Whether the name is a spelling of a tag that bears content. -/
  anySpelling : Bool
deriving DecidableEq

def SpellingTable.report (table : SpellingTable) (name : Text) : NameReport where
  canonical := table.canonical? name
  content := table.contentMatcher.contains name
  guarded := table.guardedMatcher.contains name
  anySpelling := table.anySpellingMatcher.contains name

inductive RegistryStep where
  | register (family : Family)
  | unregister (tags : List Text)
  | lookup (name : Text)

inductive RegistryAnswer where
  | registered
  | removed (families : Nat)
  | found (report : NameReport)
deriving DecidableEq

namespace CachedRegistry

def empty : CachedRegistry := ⟨[], none⟩

/-- The table that is kept, or else one made anew. -/
def table (registry : CachedRegistry) : SpellingTable :=
  registry.kept.getD (.ofFamilies registry.families)

def filled (registry : CachedRegistry) : CachedRegistry :=
  { registry with kept := some registry.table }

def register (registry : CachedRegistry) (family : Family) : CachedRegistry :=
  ⟨registry.families ++ [family], none⟩

/-- The registry in which some families were registered one after the other. -/
def ofFamilies (families : List Family) : CachedRegistry := families.foldl register empty

def builtIn : CachedRegistry := ofFamilies Family.builtIn

/-- The canonical tag that a name stands for, or the name itself. -/
def target (registry : CachedRegistry) (name : Text) : Text :=
  (registry.table.canonical? name).getD (Text.lower name)

/-- Takes out the families that own one of the tags, in whatever spelling, and counts them. The
table is asked for what the tags stand for. If no family goes, it is kept. -/
def unregister (registry : CachedRegistry) (tags : List Text) : Nat × CachedRegistry :=
  let asked := if tags.isEmpty then registry else registry.filled
  let targets := tags.map registry.target
  let rest := registry.families.filter fun family => !targets.any family.owns
  let removed := registry.families.length - rest.length
  (removed, if removed = 0 then asked else ⟨rest, none⟩)

/-- Looks a name up in the table, which is kept from then on. -/
def lookup (registry : CachedRegistry) (name : Text) : NameReport × CachedRegistry :=
  (registry.table.report name, registry.filled)

def step (registry : CachedRegistry) : RegistryStep → RegistryAnswer × CachedRegistry
  | .register family => (.registered, registry.register family)
  | .unregister tags =>
    let (removed, after) := registry.unregister tags
    (.removed removed, after)
  | .lookup name =>
    let (report, after) := registry.lookup name
    (.found report, after)

def run (registry : CachedRegistry) : List RegistryStep → List RegistryAnswer × CachedRegistry
  | [] => ([], registry)
  | first :: steps =>
    let (answer, registry) := registry.step first
    let (answers, registry) := registry.run steps
    (answer :: answers, registry)

def registry (registry : CachedRegistry) : Registry := .ofFamilies registry.families

end CachedRegistry

end MarkupActions
