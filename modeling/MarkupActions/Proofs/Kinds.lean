import Mathlib.Data.List.Basic
import Mathlib.Data.List.Pairwise
import MarkupActions.Registry.Basic
import MarkupActions.Action.Kind

/-!
# What the built-in families yield

Each built-in family goes through the blocks of one matcher and makes actions of its own kind from
them, one block at a time. Nothing else of a text has any part in it.
-/

namespace MarkupActions

theorem Text.map_lower {tags : List Text} (same : ∀ tag ∈ tags, lower tag = tag) :
    tags.map lower = tags :=
  (List.map_congr_left same).trans (List.map_id tags)

namespace Family

/-- No name belongs to two families of a list. -/
def Apart (families : List Family) : Prop :=
  ∀ f ∈ families, ∀ g ∈ families, ∀ name, f.owns name = true → g.owns name = true → f = g

theorem builtIn_apart : Apart builtIn := by
  have disjoint : builtIn.Pairwise fun f g => ∀ tag ∈ f.canonicalTags, tag ∉ g.canonicalTags := by
    decide
  have symmetric : Std.Symm fun f g : Family => ∀ tag ∈ f.canonicalTags, tag ∉ g.canonicalTags :=
    ⟨fun f g apart tag inG inF => apart tag inF inG⟩
  intro f inF g inG name ownedF ownedG
  by_cases same : f = g
  · exact same
  · have apart := disjoint.forall inF inG same
    simp only [owns, List.contains_iff_mem] at ownedF ownedG
    exact False.elim (apart _ ownedF ownedG)

/-- Whether actions of a kind are the family's to yield. -/
def yields (family : Family) (kind : Kind) : Bool := family.owns kind.name.toList

/-- The family makes its actions block by block, and makes only those of its own kind. -/
def ReadsBlocks (family : Family) : Prop :=
  ∃ (m : Matcher) (actions : Screening → Block → List Action),
    (∀ screening s, family.extract screening s = (m.blocks s).flatMap (actions screening)) ∧
      ∀ screening block action, action ∈ actions screening block → family.yields action.kind = true

def matcher (family : Family) : Matcher :=
  .of (if family.bearsContent then .content else .structural) family.canonicalTags

/-- The blocks that it goes through are those of its own tags. -/
def ReadsOwn (family : Family) : Prop :=
  ∃ actions : Screening → Block → List Action,
    (∀ screening s, family.extract screening s =
      (family.matcher.blocks s).flatMap (actions screening)) ∧
      ∀ screening block action, action ∈ actions screening block → family.yields action.kind = true

theorem ReadsOwn.readsBlocks {family : Family} (reads : family.ReadsOwn) : family.ReadsBlocks := by
  obtain ⟨actions, found, made⟩ := reads
  exact ⟨family.matcher, actions, found, made⟩

/-- All actions that a reader of blocks makes are of one kind. -/
def Makes (action? : Block → Option Action) (kind : Kind) : Prop :=
  ∀ block action, action? block = some action → action.kind = kind

theorem makes_map {α : Type} {value? : Block → Option α} {make : Block → α → Action} {kind : Kind}
    (made : ∀ block a, (make block a).kind = kind) :
    Makes (fun block => (value? block).map (make block)) kind := by
  intro block action found
  obtain ⟨a, _, rfl⟩ := Option.map_eq_some_iff.mp found
  exact made block a

variable {family : Family}

theorem readsOwn_filterMap (kind : Kind) (own : family.yields kind = true)
    (action? : Screening → Block → Option Action)
    (made : ∀ screening, Makes (action? screening) kind)
    (reads : ∀ screening s, family.extract screening s =
      (family.matcher.blocks s).filterMap (action? screening)) :
    family.ReadsOwn := by
  refine ⟨fun screening block => (action? screening block).toList, ?_, ?_⟩
  · intro screening s
    rw [reads, List.filterMap_eq_flatMap_toList]
  · intro screening block action found
    rw [made screening block action (by simpa using found)]
    exact own

theorem readsOwn_map (kind : Kind) (own : family.yields kind = true) (make : Block → Action)
    (made : ∀ block, (make block).kind = kind)
    (reads : ∀ screening s, family.extract screening s = (family.matcher.blocks s).map make) :
    family.ReadsOwn := by
  refine readsOwn_filterMap kind own (fun _ block => some (make block)) ?_ ?_
  · intro screening block action found
    rw [← Option.some.inj found]
    exact made block
  · intro screening s
    rw [reads]
    simp

theorem file_makes (screening : Screening) (make : FileContent → Action) {kind : Kind}
    (made : ∀ file, (make file).kind = kind) :
    Makes (fun block => (file? screening block).map make) kind :=
  makes_map fun _ file => made file

theorem fetch_makes : Makes fetchAction? .fetch := by
  intro block action found
  unfold fetchAction? at found
  split at found
  · rw [← Option.some.inj found]
    rfl
  · obtain ⟨url, _, inner⟩ := Option.bind_eq_some_iff.mp found
    split at inner
    · rw [← Option.some.inj inner]
      rfl
    · cases inner

theorem schedule_makes : Makes scheduleAction? .schedule := by
  intro block action found
  unfold scheduleAction? at found
  obtain ⟨name, _, found⟩ := Option.bind_eq_some_iff.mp found
  obtain ⟨cron, _, found⟩ := Option.bind_eq_some_iff.mp found
  obtain ⟨payload, _, found⟩ := Option.bind_eq_some_iff.mp found
  split at found
  · rw [← Option.some.inj found]
    rfl
  · cases found

theorem plan_makes : Makes planAction? .plan := by
  intro block action found
  unfold planAction? at found
  split at found
  · cases found
  · rw [← Option.some.inj found]
    rfl

theorem telegram_makes : Makes telegramAction? .telegram := by
  intro block action found
  unfold telegramAction? at found
  simp only at found
  split at found
  · cases found
  · rw [← Option.some.inj found]
    rfl

theorem discord_makes : Makes discordAction? .discord := by
  intro block action found
  unfold discordAction? at found
  simp only at found
  split at found
  · cases found
  · rw [← Option.some.inj found]
    rfl

theorem edits_kind {screening : Screening} {inherited : Option Text} {block : Block}
    {action : Action}
    (found : action ∈ edits screening inherited block) : action.kind = .edit := by
  unfold edits at found
  split at found
  · simp at found
  · split at found
    · simp at found
    · obtain ⟨change, _, rfl⟩ := List.mem_map.mp found
      rfl

theorem editActions_kind {screening : Screening} {block : Block} {action : Action}
    (found : action ∈ editActions screening block) : action.kind = .edit := by
  unfold editActions multiEdits at found
  split at found
  · split at found
    · simp at found
    · obtain ⟨inner, _, found⟩ := List.mem_flatMap.mp found
      exact edits_kind found
  · exact edits_kind found

theorem builtIn_readsOwn {family : Family} (member : family ∈ builtIn) : family.ReadsOwn := by
  simp only [builtIn, List.mem_cons, List.not_mem_nil, or_false] at member
  rcases member with rfl | rfl | rfl | rfl | rfl | rfl | rfl | rfl | rfl | rfl | rfl | rfl | rfl
    | rfl | rfl |
    rfl | rfl | rfl | rfl
  · refine readsOwn_filterMap .write (by decide) _
      (fun screening => file_makes screening .write fun _ => rfl) fun screening s => ?_
    exact List.map_filterMap
  · refine readsOwn_filterMap .create (by decide) _
      (fun screening => file_makes screening .create fun _ => rfl) fun screening s => ?_
    exact List.map_filterMap
  · refine ⟨editActions, fun _ _ => rfl, fun screening block action found => ?_⟩
    rw [editActions_kind found]
    decide
  · exact readsOwn_filterMap .say (by decide) _ (fun _ => makes_map fun _ _ => rfl) fun _ _ => rfl
  · exact readsOwn_map .finish (by decide) finishAction (fun _ => rfl) fun _ _ => rfl
  · exact readsOwn_filterMap .task (by decide) _ (fun _ => makes_map fun _ _ => rfl) fun _ _ => rfl
  · exact readsOwn_filterMap .plan (by decide) _ (fun _ => plan_makes) fun _ _ => rfl
  · exact readsOwn_filterMap .read (by decide) _ (fun _ => makes_map fun _ _ => rfl) fun _ _ => rfl
  · exact readsOwn_filterMap .bash (by decide) _ (fun _ => makes_map fun _ _ => rfl) fun _ _ => rfl
  · exact readsOwn_filterMap .grep (by decide) _ (fun _ => makes_map fun _ _ => rfl) fun _ _ => rfl
  · exact readsOwn_filterMap .glob (by decide) _ (fun _ => makes_map fun _ _ => rfl) fun _ _ => rfl
  · exact readsOwn_map .list (by decide) listAction (fun _ => rfl) fun _ _ => rfl
  · exact readsOwn_filterMap .fetch (by decide) _ (fun _ => fetch_makes) fun _ _ => rfl
  · exact readsOwn_filterMap .schedule (by decide) _ (fun _ => schedule_makes) fun _ _ => rfl
  · exact readsOwn_filterMap .unschedule (by decide) _ (fun _ => makes_map fun _ _ => rfl)
      fun _ _ => rfl
  · exact readsOwn_filterMap .notify (by decide) _ (fun _ => makes_map fun _ _ => rfl) fun _ _ =>
      rfl
  · exact readsOwn_filterMap .skill (by decide) _ (fun _ => makes_map fun _ _ => rfl) fun _ _ => rfl
  · exact readsOwn_filterMap .telegram (by decide) _ (fun _ => telegram_makes) fun _ _ => rfl
  · exact readsOwn_filterMap .discord (by decide) _ (fun _ => discord_makes) fun _ _ => rfl

theorem builtIn_lowerCase : ∀ family ∈ builtIn, ∀ tag ∈ family.canonicalTags, Text.lower tag =
    tag := by
  decide

theorem lower_canonicalTags {family : Family} (member : family ∈ builtIn) :
    family.canonicalTags.map Text.lower = family.canonicalTags :=
  Text.map_lower (builtIn_lowerCase family member)

theorem builtIn_readsBlocks {family : Family} (member : family ∈ builtIn) : family.ReadsBlocks :=
  (builtIn_readsOwn member).readsBlocks

/-- A built-in family yields actions of its own kind and no others. -/
theorem builtIn_yields {family : Family} (member : family ∈ builtIn) {screening : Screening}
    {s : Text}
    {action : Action} (found : action ∈ family.extract screening s) :
    family.yields action.kind = true := by
  obtain ⟨actions, reads, made⟩ := builtIn_readsOwn member
  rw [reads] at found
  obtain ⟨block, _, inner⟩ := List.mem_flatMap.mp found
  exact made screening block action inner

end Family

end MarkupActions
