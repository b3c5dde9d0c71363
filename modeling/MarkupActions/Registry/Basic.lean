import MarkupActions.Registry.Table
import MarkupActions.Family.BuiltIn

/-!
# Registries

Families in the order of their registration, with the table of their spellings. The table grows with
each family that is registered and is made anew when families go; that it is always the table of the
families there are is part of the type.
-/

namespace MarkupActions

structure Registry where
  families : List Family
  table : SpellingTable
  table_eq : table = SpellingTable.ofFamilies families

namespace Registry

def ofFamilies (families : List Family) : Registry := ⟨families, .ofFamilies families, rfl⟩

def empty : Registry := ofFamilies []

def builtIn : Registry := ofFamilies Family.builtIn

def register (registry : Registry) (family : Family) : Registry where
  families := registry.families ++ [family]
  table := registry.table.add family
  table_eq := by simp [registry.table_eq, SpellingTable.ofFamilies, List.foldl_append]

/-- The canonical tag that a name stands for, or the name itself. -/
def target (registry : Registry) (name : Text) : Text :=
  (registry.table.canonical? name).getD (Text.lower name)

/-- The registry without the families that own one of the tags, in whatever spelling. -/
def unregister (registry : Registry) (tags : List Text) : Registry :=
  let targets := tags.map registry.target
  ofFamilies (registry.families.filter fun family => !targets.any family.owns)

def size (registry : Registry) : Nat := registry.families.length

def isEmpty (registry : Registry) : Bool := registry.families.isEmpty

def canonicalTags (registry : Registry) : List Text := registry.families.flatMap (·.canonicalTags)

def contentFamilies (registry : Registry) : List Family := registry.families.filter (·.bearsContent)

def structuralFamilies (registry : Registry) : List Family :=
  registry.families.filter (!·.bearsContent)

end Registry

end MarkupActions
