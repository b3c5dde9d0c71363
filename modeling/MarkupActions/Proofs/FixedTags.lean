import MarkupActions.Proofs.Idempotence
import MarkupActions.Proofs.Kinds
import MarkupActions.Proofs.Retiring

/-!
# Tags that stand for themselves

What a name stands for is a tag of one of the families, but this tag may be a name of an earlier
family as well, and then it stands for another one. A tag stands for itself if and only if no name
ahead of it may be written like it.
-/

namespace MarkupActions

open SpellingTable (earliest? entriesOf)

/-- Whether the tags of a family are in lower case, and its aliases stand for tags of its own. -/
structure Family.SelfContained (family : Family) : Prop where
  lower : ∀ tag ∈ family.canonicalTags, Text.lower tag = tag
  own : ∀ entry ∈ family.aliases, entry.2 ∈ family.canonicalTags

namespace Family.SelfContained

variable {family : Family} {entry : Text × Text}

/-- Every name of such a family stands for one of its tags. -/
theorem canonical (contained : family.SelfContained) (listed : entry ∈ entriesOf family) :
    entry.2 ∈ family.canonicalTags := by
  rcases List.mem_append.mp listed with tag | other
  · obtain ⟨tag, inside, rfl⟩ := List.mem_map.mp tag
    exact inside
  · exact contained.own entry other

theorem owns (contained : family.SelfContained) (listed : entry ∈ entriesOf family) :
    family.owns entry.2 = true := by
  have inside := contained.canonical listed
  rwa [Family.owns, contained.lower _ inside, List.contains_iff_mem]

end Family.SelfContained

theorem mem_takeWhile_append {α : Type} {p : α → Bool} {l r : List α} {a : α}
    (inside : a ∈ (l ++ r).takeWhile p) :
    a ∈ l.takeWhile p ∨ (∀ b ∈ l, p b = true) ∧ a ∈ r.takeWhile p := by
  rw [List.takeWhile_append] at inside
  split at inside
  · rename_i whole
    have all := List.takeWhile_eq_self_iff.mp ((List.takeWhile_prefix p).eq_of_length whole)
    rcases List.mem_append.mp inside with early | late
    · rw [List.takeWhile_eq_self_iff.mpr all]
      exact .inl early
    · exact .inr ⟨all, late⟩
  · exact .inl inside

namespace SpellingTable

variable {families : List Family} {name tag : Text} {entry : Text × Text}

/-- The names that come ahead of a tag. -/
def ahead (families : List Family) (tag : Text) : List (Text × Text) :=
  (families.flatMap entriesOf).takeWhile (· != (tag, tag))

/-- Nothing ahead of a tag stands for it: in its own family the tags come before the aliases. -/
theorem ne_of_mem_ahead (contained : ∀ family ∈ families, family.SelfContained)
    (inside : entry ∈ ahead families tag) :
    entry.2 ≠ tag := by
  unfold ahead at inside
  induction families with
  | nil => cases inside
  | cons family families ih =>
    rw [List.flatMap_cons, entriesOf, List.append_assoc] at inside
    rcases mem_takeWhile_append inside with early | ⟨others, later⟩
    · obtain ⟨other, _, rfl⟩ := List.mem_map.mp (List.takeWhile_subset _ early)
      rintro rfl
      exact absurd (List.mem_takeWhile_imp early) (by simp)
    · rcases mem_takeWhile_append later with listed | ⟨_, behind⟩
      · rintro rfl
        have own := (contained family List.mem_cons_self).own entry (List.takeWhile_subset _ listed)
        have passed := others (entry.2, entry.2) (List.mem_map.mpr ⟨entry.2, own, rfl⟩)
        exact absurd passed (by simp)
      · exact ih (fun other member => contained other (List.mem_cons_of_mem _ member)) behind

/-- What is not ahead of a tag begins with the tag itself. -/
theorem names_split (listed : (tag, tag) ∈ families.flatMap entriesOf) :
    ∃ behind, families.flatMap entriesOf = ahead families tag ++ (tag, tag) :: behind := by
  unfold ahead
  generalize families.flatMap entriesOf = names at listed
  induction names with
  | nil => cases listed
  | cons entry names ih =>
    by_cases first : entry = (tag, tag)
    · exact ⟨names, by simp [first]⟩
    · obtain ⟨behind, rest⟩ := ih ((List.mem_cons.mp listed).resolve_left (Ne.symm first))
      refine ⟨behind, ?_⟩
      rw [List.takeWhile_cons_of_pos (by simpa using first), List.cons_append, ← rest]

/-- A tag of a family stands for itself if and only if no name ahead of it may be written like it.
-/
theorem earliest?_eq_self_iff (contained : ∀ family ∈ families, family.SelfContained)
    (listed : (tag, tag) ∈ families.flatMap entriesOf) (lower : Text.lower tag = tag) :
    earliest? families tag = some tag ↔
      ∀ entry ∈ ahead families tag, tag ∉ Spelling.ofTag entry.1 := by
  obtain ⟨behind, names⟩ := names_split listed
  have spelled : tag ∈ Spelling.ofTag tag := by
    rw [Spelling.ofTag, List.mem_eraseDups, lower]
    exact List.mem_cons_self
  have self : (((tag, tag) :: behind).find? fun entry => (Spelling.ofTag entry.1).contains tag) =
    some (tag, tag) := by
    simp [spelled]
  rw [earliest?, lower, names, List.find?_append, self]
  constructor
  · intro stands entry inside written
    -- The first name ahead that is written like the tag would stand for it, and none of them does.
    obtain ⟨found, first⟩ := Option.isSome_iff_exists.mp
      (List.find?_isSome.mpr ⟨entry, inside, List.contains_iff_mem.mpr written⟩ :
        ((ahead families tag).find? fun entry => (Spelling.ofTag entry.1).contains tag).isSome =
          true)
    rw [first] at stands
    exact ne_of_mem_ahead contained (List.mem_of_find?_eq_some first) (Option.some.inj stands)
  · intro free
    have none : ((ahead families tag).find? fun entry => (Spelling.ofTag entry.1).contains tag) =
      none := by
      rw [List.find?_eq_none]
      exact fun entry inside written => free entry inside (List.contains_iff_mem.mp written)
    rw [none]
    rfl

end SpellingTable

namespace CachedRegistry

variable {registry : CachedRegistry} {family : Family}

/-- A step brings in no family but one that it registers. -/
theorem mem_step {step : RegistryStep} (member : family ∈ (registry.step step).2.families) :
    family ∈ registry.families ∨ .register family = step := by
  cases step with
  | register other =>
    rcases List.mem_append.mp member with before | last
    · exact .inl before
    · rw [List.mem_singleton.mp last]
      exact .inr rfl
  | unregister tags =>
    have kept : family ∈ (registry.unregister tags).2.families := member
    rw [families_unregister] at kept
    exact .inl (List.mem_filter.mp kept).1
  | lookup name => exact .inl member

/-- Every family that is there after some steps was there before, or one of them has registered it.
-/
theorem mem_run {steps : List RegistryStep} (member : family ∈ (registry.run steps).2.families) :
    family ∈ registry.families ∨ .register family ∈ steps := by
  induction steps generalizing registry with
  | nil => exact .inl member
  | cons first steps ih =>
    rcases ih member with after | later
    · exact (mem_step after).imp_right fun same => List.mem_cons.mpr (.inl same)
    · exact .inr (List.mem_cons_of_mem _ later)

/-- Whatever has been registered and unregistered of families whose aliases stand for their own
tags: what a name stands for is a tag that a family owns, and it stands for itself if and only if no
name ahead of it may be written like it. -/
theorem canonical?_fixed_iff (steps : List RegistryStep)
    (contained : ∀ family, .register family ∈ steps → family.SelfContained) {name tag : Text}
    (known : (empty.run steps).2.table.canonical? name = some tag) :
    let registry := (empty.run steps).2
    (∃ family ∈ registry.families, family.owns tag = true) ∧
      (registry.table.canonical? tag = some tag ↔
        ∀ entry ∈ SpellingTable.ahead registry.families tag, tag ∉ Spelling.ofTag entry.1) := by
  intro registry
  have fresh : registry.Fresh := ((fresh_of_none []).run steps).1
  have all : ∀ family ∈ registry.families, family.SelfContained := fun family member =>
    contained family ((mem_run member).resolve_left List.not_mem_nil)
  have stands : (SpellingTable.ofFamilies registry.families).canonical? name = some tag := by
    rw [← fresh.table_eq]
    exact known
  obtain ⟨family, member, entry, listed, _, rfl⟩ :=
    SpellingTable.mem_ofFamilies (SpellingTable.mem_of_canonical? stands)
  have own := (all family member).canonical listed
  have self : (entry.2, entry.2) ∈ registry.families.flatMap entriesOf :=
    List.mem_flatMap.mpr ⟨family, member,
      List.mem_append_left _ (List.mem_map.mpr ⟨entry.2, own, rfl⟩)⟩
  refine ⟨⟨family, member, (all family member).owns listed⟩, ?_⟩
  rw [fresh.table_eq, SpellingTable.canonical?_ofFamilies]
  exact SpellingTable.earliest?_eq_self_iff all self ((all family member).lower _ own)

/-- Once commands are unregistered their alias is free to be a tag, and then it stands for itself.
-/
theorem canonical?_fixed_shell :
    let shell : Family :=
      { tags := names ["shell"], aliases := aliasesOf "shell" ["run"], extract := fun _ _ => [] }
    let steps := Family.builtIn.map RegistryStep.register ++
      [.unregister (names ["bash"]), .register shell]
    let registry := (empty.run steps).2
    (∀ family, .register family ∈ steps → family.SelfContained) ∧
      registry.table.canonical? "Run".toList = some "shell".toList ∧
      (∃ family ∈ registry.families, family.owns "shell".toList = true) ∧
      (registry.table.canonical? "shell".toList = some "shell".toList ↔
        ∀ entry ∈ SpellingTable.ahead registry.families "shell".toList,
          "shell".toList ∉ Spelling.ofTag entry.1) ∧
      registry.table.canonical? "shell".toList = some "shell".toList := by
  intro shell steps registry
  have builtIn : ∀ family ∈ Family.builtIn, family.SelfContained := by
    intro family member
    refine ⟨Family.builtIn_lowerCase family member, fun entry listed => ?_⟩
    exact (SpellingTable.agree_builtIn.own family member entry (List.mem_append_right _ listed)).1
  have contained : ∀ family, .register family ∈ steps → family.SelfContained := by
    intro family registered
    rcases List.mem_append.mp registered with early | late
    · obtain ⟨other, member, same⟩ := List.mem_map.mp early
      obtain rfl := RegistryStep.register.inj same
      exact builtIn other member
    · simp only [List.mem_cons, reduceCtorEq, RegistryStep.register.injEq, List.not_mem_nil,
        or_false, false_or] at late
      subst late
      exact ⟨by decide, by decide⟩
  have known : registry.table.canonical? "Run".toList = some "shell".toList := by decide +kernel
  obtain ⟨owned, fixed⟩ := canonical?_fixed_iff steps contained known
  exact ⟨contained, known, owned, fixed, by decide +kernel⟩

/-- The alias of one family is the tag of another, which has an alias of its own: one name leads to
the next. -/
theorem earlier_alias_matters :
    ¬ ∀ steps : List RegistryStep, (∀ family, .register family ∈ steps → family.SelfContained) →
      ∀ name tag, (empty.run steps).2.table.canonical? name = some tag →
        (empty.run steps).2.table.canonical? tag = some tag := by
  intro always
  have fixed := always
    [.register
        { tags := names ["bash"], aliases := aliasesOf "bash" ["run"], extract := fun _ _ => [] },
      .register
        { tags := names ["run"], aliases := aliasesOf "run" ["exec"], extract := fun _ _ => [] }]
    (by
      simp only [List.mem_cons, RegistryStep.register.injEq, List.not_mem_nil, or_false]
      rintro family (rfl | rfl)
      · exact ⟨by decide, by decide⟩
      · exact ⟨by decide, by decide⟩)
    "exec".toList "run".toList (by decide)
  revert fixed
  decide

end CachedRegistry

end MarkupActions
