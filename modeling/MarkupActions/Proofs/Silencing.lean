import MarkupActions.CommandLine.Session
import MarkupActions.Proofs.Idempotence
import MarkupActions.Proofs.Kinds
import MarkupActions.Proofs.Reading

/-!
# What an entry turns off

An entry of the settings turns off the family that has it as a tag or an alias, with hyphens or
underscores and in any letter case. An entry that names no family turns nothing off.
-/

namespace MarkupActions

namespace Spelling

variable {s t name : Text} {c old new : Char}

def isSeparator (c : Char) : Bool := c == '-' || c == '_'

/-- A name in lower case and with hyphens, so that letter case and separators tell no two names
apart. -/
def plain (name : Text) : Text := swap '_' '-' (Text.lower name)

theorem isSeparator_iff : isSeparator c = true ↔ c = '-' ∨ c = '_' := by simp [isSeparator]

theorem swap_cons_letter (isOld : isSeparator old = true) (letter : isSeparator c = false)
    (s : Text) :
    swap old new (c :: s) = c :: swap old new s := by
  have other : c ≠ old := by
    rintro rfl
    rw [isOld] at letter
    cases letter
  rw [swap, List.map_cons, if_neg other]
  rfl

theorem swap_cons_separator (separator : isSeparator c = true) (s : Text) :
    swap '-' '_' (c :: s) = '_' :: swap '-' '_' s ∧ swap '_' '-'
      (c :: s) = '-' :: swap '_' '-' s := by
  rcases isSeparator_iff.mp separator with rfl | rfl <;> exact ⟨rfl, rfl⟩

theorem swap_eq_self (isOld : isSeparator old = true) (bare : s.countP isSeparator = 0) :
    swap old new s = s := by
  refine (List.map_congr_left fun c inside => if_neg ?_).trans (List.map_id s)
  rintro rfl
  exact List.countP_eq_zero.mp bare c inside isOld

/-- Once the separators are hyphens, it does not matter what they were. -/
theorem swap_swap (isOld : isSeparator old = true) (isNew : isSeparator new = true) (s : Text) :
    swap '_' '-' (swap old new s) = swap '_' '-' s := by
  rw [swap, swap, swap, List.map_map]
  refine List.map_congr_left fun c _ => ?_
  by_cases replaced : c = old
  · subst replaced
    rcases isSeparator_iff.mp isOld with rfl | rfl <;>
      rcases isSeparator_iff.mp isNew with rfl | rfl <;> rfl
  · simp [replaced]

theorem eq_of_swap_eq (bare : t.countP isSeparator = 0) (same : swap '_' '-' s = swap '_' '-' t) :
    s = t := by
  rw [swap_eq_self (by decide) bare] at same
  subst same
  refine (swap_eq_self (by decide) (List.countP_eq_zero.mpr fun c inside separator => ?_)).symm
  have hyphen : '-' ∈ swap '_' '-' s := by
    refine List.mem_map.mpr ⟨c, inside, ?_⟩
    rcases isSeparator_iff.mp separator with rfl | rfl <;> rfl
  exact List.countP_eq_zero.mp bare '-' hyphen (by decide)

/-- With one separator at most, to write it as a hyphen or as an underscore is all the choice there
is. -/
theorem eq_swap_of_swap_eq (few : t.countP isSeparator ≤ 1)
    (same : swap '_' '-' s = swap '_' '-' t) :
    s = swap '-' '_' t ∨ s = swap '_' '-' t := by
  induction t generalizing s with
  | nil => exact .inl (List.map_eq_nil_iff.mp same)
  | cons c t ih =>
    cases s with
    | nil => cases same
    | cons d s =>
      cases separator : isSeparator c with
      | true =>
        -- The rest of the name has none, so it is written in one way.
        have bare : t.countP isSeparator = 0 := by
          rw [List.countP_cons_of_pos separator] at few
          omega
        obtain ⟨under, dash⟩ := swap_cons_separator separator t
        rw [dash] at same
        rw [under, dash, swap_eq_self (by decide) bare, swap_eq_self (by decide) bare]
        cases first : isSeparator d with
        | true =>
          rw [(swap_cons_separator first s).2] at same
          obtain rfl := eq_of_swap_eq bare (List.cons.inj same).2
          rcases isSeparator_iff.mp first with rfl | rfl
          · exact .inr rfl
          · exact .inl rfl
        | false =>
          rw [swap_cons_letter (by decide) first] at same
          rw [(List.cons.inj same).1] at first
          cases first
      | false =>
        rw [List.countP_cons_of_neg (by simp [separator])] at few
        rw [swap_cons_letter (by decide) separator] at same
        rw [swap_cons_letter (by decide) separator, swap_cons_letter (by decide) separator]
        cases first : isSeparator d with
        | true =>
          rw [(swap_cons_separator first s).2] at same
          rw [← (List.cons.inj same).1] at separator
          cases separator
        | false =>
          rw [swap_cons_letter (by decide) first] at same
          obtain ⟨rfl, rest⟩ := List.cons.inj same
          exact (ih few rest).imp (congrArg (d :: ·)) (congrArg (d :: ·))

/-- The spellings of a tag are all the names that differ from it in letter case and separators
alone. -/
theorem mem_ofTag_iff (few : (Text.lower name).countP isSeparator ≤ 1) :
    Text.lower s ∈ ofTag name ↔ plain s = plain name := by
  rw [ofTag, List.mem_eraseDups, plain, plain]
  simp only [List.mem_cons, List.not_mem_nil, or_false]
  constructor
  · rintro (same | under | dash)
    · rw [same]
    · rw [under, swap_swap (by decide) (by decide)]
    · rw [dash, swap_swap (by decide) (by decide)]
  · exact fun same => .inr (eq_swap_of_swap_eq few same)

end Spelling

namespace Family

open SpellingTable (entriesOf)

variable {family : Family}

/-- Whether a name is one of the tags and aliases of a family, with hyphens or underscores, in any
letter case. -/
def isNamed (family : Family) (name : Text) : Bool :=
  (family.canonicalTags ++ family.aliases.map (·.1)).any fun own =>
    Spelling.plain name == Spelling.plain own

theorem isNamed_iff {name : Text} :
    family.isNamed name = true ↔ ∃ entry ∈ entriesOf family, Spelling.plain name =
      Spelling.plain entry.1 := by
  simp [isNamed, entriesOf, or_and_right, exists_or]

/-- No built-in name has more than one separator. -/
theorem builtIn_separators : ∀ family ∈ builtIn, ∀ entry ∈ entriesOf family,
    (Text.lower entry.1).countP Spelling.isSeparator ≤ 1 := by
  decide

end Family

namespace Registry

open SpellingTable (entriesOf entries_builtIn mem_ofFamilies mem_of_canonical?)

/-- The tag that an entry stands for is owned by the family that the entry names, and by no other.
-/
theorem owns_target {family : Family} (member : family ∈ Family.builtIn) (name : Text) :
    family.owns (builtIn.target name) = family.isNamed name := by
  rw [Bool.eq_iff_iff, Family.isNamed_iff, Family.owns, List.contains_iff_mem]
  constructor
  · intro owned
    cases known : builtIn.table.canonical? name with
    | some tag =>
      obtain ⟨other, among, entry, listed, spelled, rfl⟩ := mem_ofFamilies (mem_of_canonical? known)
      obtain ⟨⟨canonical, lower, _⟩, _⟩ := entries_builtIn other among entry listed
      rw [target, known, Option.getD_some] at owned
      have own : other.owns entry.2 = true := List.contains_iff_mem.mpr (by rwa [lower])
      obtain rfl := Family.builtIn_apart other among family member _ own
        (List.contains_iff_mem.mpr owned)
      exact ⟨entry, listed, (Spelling.mem_ofTag_iff
        (Family.builtIn_separators other among entry listed)).mp spelled⟩
    | none =>
      rw [target, known, Option.getD_none, Text.lower_lower] at owned
      refine ⟨(Text.lower name, Text.lower name),
        List.mem_append_left _ (List.mem_map.mpr ⟨_, owned, rfl⟩), ?_⟩
      rw [Spelling.plain, Spelling.plain, Text.lower_lower]
  · rintro ⟨entry, listed, same⟩
    obtain ⟨⟨canonical, lower, _⟩, found⟩ := entries_builtIn family member entry listed
    have spelled := (Spelling.mem_ofTag_iff
      (Family.builtIn_separators family member entry listed)).mpr same
    have target : builtIn.target name = entry.2 := by
      rw [Registry.target, SpellingTable.canonical?, found _ spelled, Option.getD_some]
    rwa [target, lower]

end Registry

namespace ParserSettings

open CommandLine (actionsOf)

def lists (settings : ParserSettings) (family : Family) : Bool :=
  settings.disabledTags.any fun entry => family.isNamed entry.toList

/-- The settings without the entries that name no built-in family. -/
def withoutStrays (settings : ParserSettings) : ParserSettings :=
  { settings with disabledTags := settings.disabledTags.filter fun entry =>
    Family.builtIn.any (·.isNamed entry.toList) }

/-- The families that are on are those that no entry names. -/
theorem registry_eq (settings : ParserSettings) :
    settings.registry = Registry.ofFamilies
      (Family.builtIn.filter fun family => !settings.lists family) := by
  refine congrArg Registry.ofFamilies (List.filter_congr fun family member => ?_)
  rw [List.any_map, List.any_map]
  refine congrArg (!·) (congrArg settings.disabledTags.any (funext fun entry => ?_))
  exact Registry.owns_target member entry.toList

theorem lists_withoutStrays (settings : ParserSettings) {family : Family}
    (member : family ∈ Family.builtIn) :
    settings.withoutStrays.lists family = settings.lists family := by
  rw [lists, lists, withoutStrays, List.any_filter]
  refine congrArg settings.disabledTags.any (funext fun entry => ?_)
  cases named : family.isNamed entry.toList with
  | false => rw [Bool.and_false]
  | true =>
    rw [Bool.and_true]
    exact List.any_eq_true.mpr ⟨family, member, named⟩

/-- An entry that names no built-in family has no part in which of them are on. -/
theorem registry_withoutStrays (settings : ParserSettings) :
    settings.withoutStrays.registry = settings.registry := by
  rw [registry_eq, registry_eq]
  refine congrArg Registry.ofFamilies (List.filter_congr fun family member => ?_)
  rw [lists_withoutStrays settings member]

/-- A family that an entry names stays silent, whatever the text. All others are read, and the
entries that name no family might as well not be there. -/
theorem actionsOf_named (settings : ParserSettings) (text : Text) :
    (∀ family ∈ Family.builtIn, settings.lists family = true →
      ∀ action ∈ actionsOf settings text, family.yields action.kind = false) ∧
    settings.registry.families = Family.builtIn.filter (!settings.lists ·) ∧
    actionsOf settings text = actionsOf settings.withoutStrays text := by
  refine ⟨fun family member listed action found =>
    ?_, congrArg Registry.families (registry_eq settings), ?_⟩
  · obtain ⟨other, inside, t, found⟩ := Registry.mem_readWorking found
    rw [registry_eq] at inside
    obtain ⟨among, unlisted⟩ := List.mem_filter.mp inside
    by_contra own
    have same : other = family := Family.builtIn_apart other among family member
      action.kind.name.toList
      (Family.builtIn_yields among found) (eq_true_of_ne_false own)
    rw [same, listed] at unlisted
    cases unlisted
  · rw [actionsOf, actionsOf, registry_withoutStrays]
    rfl

/-- With an alias of commands and a name of nothing on the list, a command is passed over and the
message after it is read. -/
theorem actionsOf_without_shell :
    let settings : ParserSettings := ⟨["SHELL", "shells"], {}⟩
    let text := "<Run>ls</Run><say>done</say>".toList
    settings.withoutStrays.disabledTags = ["SHELL"] ∧ settings.lists Family.bash = true ∧
      (∀ action ∈ actionsOf settings text, Family.bash.yields action.kind = false) ∧
      (actionsOf settings text).map Action.kind = [.say] := by
  intro settings text
  have listed : settings.lists Family.bash = true := by decide +kernel
  refine ⟨by decide +kernel, listed, ?_, by decide +kernel⟩
  exact (actionsOf_named settings text).1 Family.bash (by simp [Family.builtIn]) listed

end ParserSettings

end MarkupActions
