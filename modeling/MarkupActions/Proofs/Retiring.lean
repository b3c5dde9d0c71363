import MarkupActions.Proofs.Lookups
import MarkupActions.Proofs.Payloads

/-!
# What unregistering leaves of a name

To unregister a name is to look it up once and to take out the families that own what it stands for.
The first family that goes by a name hides those behind it, and these are not looked for: a name is
gone for good if and only if every family that claims it owns what one of the unregistered names
stands for.
-/

namespace MarkupActions

namespace Family

open SpellingTable (earliest? entriesOf)

variable {families : List Family} {name : Text}

theorem mem_spellings {family : Family} {spelling : Text} :
    spelling ∈ family.spellings ↔ ∃ entry ∈ entriesOf family,
      spelling ∈ Spelling.ofTag entry.1 := by
  simp [spellings, Spelling.ofTags, entriesOf, or_and_right, exists_or]

/-- Whether one of the tags or aliases of a family may be written like this, in any letter case. -/
def knows (family : Family) (name : Text) : Bool := family.spellings.contains (Text.lower name)

/-- Whether a family owns a name in one of its spellings. -/
def ownsSpelling (family : Family) (name : Text) : Bool := (Spelling.ofTag name).any family.owns

/-- Whether a family makes something of a name, or owns it. -/
def claims (family : Family) (name : Text) : Bool := family.knows name || family.ownsSpelling name

/-- A name stands for nothing if no family knows it, wherever in the order it comes. -/
theorem earliest?_eq_none : earliest? families name = none ↔
    ∀ family ∈ families, family.knows name = false := by
  rw [earliest?, Option.map_eq_none_iff, List.find?_eq_none]
  simp only [List.mem_flatMap, List.contains_iff_mem, knows, ← Bool.not_eq_true, mem_spellings]
  constructor
  · rintro free family member ⟨entry, own, spelled⟩
    exact free entry ⟨family, member, own⟩ spelled
  · rintro free entry ⟨family, member, own⟩ spelled
    exact free family member ⟨entry, own, spelled⟩

end Family

namespace CachedRegistry

variable {registry : CachedRegistry} {name : Text}

/-- Whether nothing is left of a name: it stands for nothing, and no family owns it in any spelling.
-/
def Retired (registry : CachedRegistry) (name : Text) : Prop :=
  registry.table.canonical? name = none ∧
    ∀ family ∈ registry.families, family.ownsSpelling name = false

instance : Decidable (registry.Retired name) := inferInstanceAs (Decidable (_ ∧ _))

/-- The families that stay are those that own nothing of what the names stand for. -/
theorem families_unregister (registry : CachedRegistry) (tags : List Text) :
    (registry.unregister tags).2.families =
      registry.families.filter fun family => !(tags.map registry.target).any family.owns := by
  unfold unregister
  simp only
  split
  · rename_i none
    rw [filter_of_length_sub none]
    split <;> rfl
  · rfl

theorem removed_unregister (registry : CachedRegistry) (tags : List Text) :
    (registry.unregister tags).1 + (registry.unregister tags).2.families.length =
    registry.families.length := by
  rw [families_unregister]
  exact Nat.sub_add_cancel (List.length_filter_le _ _)

/-- Nothing is left of a name if no family that is left claims it. -/
theorem Fresh.retired_iff (fresh : registry.Fresh) :
    registry.Retired name ↔ ∀ family ∈ registry.families, family.claims name = false := by
  rw [Retired, fresh.table_eq, SpellingTable.canonical?_ofFamilies, Family.earliest?_eq_none,
    ← forall₂_and]
  simp only [Family.claims, Bool.or_eq_false_iff]

/-- Nothing is left of any of the names that are unregistered if and only if each family that
claimed one of them owned what one of them stood for. -/
theorem Fresh.retired_unregister_iff (fresh : registry.Fresh) (tags : List Text) :
    (∀ tag ∈ tags, (registry.unregister tags).2.Retired tag) ↔
      ∀ family ∈ registry.families, (∃ tag ∈ tags, family.claims tag = true) →
        ∃ tag ∈ tags, family.owns (registry.target tag) = true := by
  simp only [(fresh.unregister tags).1.retired_iff, families_unregister, List.mem_filter,
    Bool.not_eq_true', List.any_map, List.any_eq_false, Function.comp_apply]
  constructor
  · rintro gone family member ⟨tag, listed, claimed⟩
    by_contra kept
    have stays : ∀ other ∈ tags, ¬ family.owns (registry.target other) = true :=
      fun other inside owned => kept ⟨other, inside, owned⟩
    rw [gone tag listed family ⟨member, stays⟩] at claimed
    cases claimed
  · rintro owned tag listed family ⟨member, stays⟩
    by_contra claimed
    obtain ⟨other, inside, own⟩ := owned family member ⟨tag, listed, eq_true_of_ne_false claimed⟩
    exact stays other inside own

/-- Whatever has been done with a registry: to unregister names takes families out and counts them,
those that stay keep their order, and nothing is left of the names if and only if each family that
claimed one of them owned what one of them stood for. -/
theorem unregister_retires (steps : List RegistryStep) (tags : List Text) :
    let before := (empty.run steps).2
    let removed := (before.unregister tags).1
    let after := (before.unregister tags).2
    after.families.Sublist before.families ∧
      removed + after.families.length = before.families.length ∧
      ((∀ tag ∈ tags, after.Retired tag) ↔
        ∀ family ∈ before.families, (∃ tag ∈ tags, family.claims tag = true) →
          ∃ tag ∈ tags, family.owns (before.target tag) = true) := by
  intro before removed after
  have fresh : before.Fresh := ((fresh_of_none []).run steps).1
  have order : after.families.Sublist before.families := by
    rw [families_unregister]
    exact List.filter_sublist
  exact ⟨order, removed_unregister before tags, fresh.retired_unregister_iff tags⟩

/-- An alias of the first family is a tag of the second. To unregister it takes out the first, and
the second still owns it. -/
theorem hidden_owner_matters :
    ¬ ∀ (steps : List RegistryStep) (tags : List Text), ∀ tag ∈ tags,
      ((empty.run steps).2.unregister tags).2.Retired tag := by
  intro always
  have retired := always
    [.register { tags := names ["bash"], aliases := aliasesOf "bash" ["run"], extract :=
      fun _ _ => [] }, .register { tags := names ["run"], extract := fun _ _ => [] }]
    (names ["run"]) "run".toList List.mem_cons_self
  revert retired
  decide

end CachedRegistry

end MarkupActions
