import MarkupActions.CommandLine.Session
import MarkupActions.Proofs.Patching
import MarkupActions.Proofs.Reading
import MarkupActions.Proofs.Turns

/-!
# Well-formed actions

What is true of every action that is read off a text, whatever the text: names, paths, commands,
patterns and messages are there and have no white space around them, a job has a schedule, a plan
has steps. So each of them can be staged. Nothing is said of what the texts mean, and a step of a
plan may be blank.
-/

namespace MarkupActions

namespace Text

/-- There is something in the text, and there is no white space around it. -/
structure Neat (s : Text) : Prop where
  some : s ≠ []
  head : ∀ c, s.head? = .some c → isBlank c = false
  last : ∀ c, s.getLast? = .some c → isBlank c = false

variable {s t : Text}

/-- A trimmed text is neat if anything is left. -/
theorem neat_trim (some : trim s ≠ []) : (trim s).Neat where
  some := some
  head c first := by
    obtain ⟨blanks, whole⟩ := List.dropWhile_suffix (l := (trimStart s).reverse) isBlank
    have front : trimStart s = trim s ++ blanks.reverse := by
      rw [trim, trimEnd, ← List.reverse_append, whole, List.reverse_reverse]
    have dark := head_dropWhile (p := isBlank) s
    rw [← trimStart, front, List.head?_append_of_ne_nil _ some, first] at dark
    exact dark
  last c final := by
    have dark := head_dropWhile (p := isBlank) (trimStart s).reverse
    rw [trim, trimEnd, List.getLast?_reverse] at final
    rw [final] at dark
    exact dark

theorem neat_of_trimmed? (found : trimmed? s = .some t) : t.Neat := by
  unfold trimmed? at found
  simp only at found
  split at found
  · cases found
  · rename_i filled
    obtain rfl := Option.some.inj found
    exact neat_trim fun none => filled (List.isEmpty_iff.mpr none)

/-- A patch that never puts anything but one dark character for what it finds. -/
def PutsDark (patch : Patch) : Prop :=
  ∀ s n written, patch s = .some (n, written) → ∃ c, written = [c] ∧ isBlank c = false

section

variable {patch : Patch} (dark : PutsDark patch)
include dark

theorem PutsDark.head {c : Char} (rest : Text) (first : isBlank c = false) :
    ∃ d rest', patchAll patch (c :: rest) = d :: rest' ∧ isBlank d = false := by
  cases found : patch (c :: rest) with
  | none => exact ⟨c, _, patchAll_of_none found, first⟩
  | some edit =>
    obtain ⟨n, written⟩ := edit
    obtain ⟨d, rfl, darkD⟩ := dark _ _ _ found
    refine ⟨d, patchAll patch (rest.drop (n - 1)), ?_, darkD⟩
    rw [patchAll, found]
    rfl

theorem PutsDark.eq_nil (nothing : patchAll patch s = []) : s = [] := by
  cases s with
  | nil => rfl
  | cons c rest =>
    rw [patchAll] at nothing
    split at nothing
    · rename_i found
      obtain ⟨d, rfl, _⟩ := dark _ _ _ found
      cases nothing
    · cases nothing

/-- The last character is one that was put in, or else the one that was there. -/
theorem PutsDark.last (ends : ∀ c, s.getLast? = .some c → isBlank c = false) :
    ∀ c, (patchAll patch s).getLast? = .some c → isBlank c = false := by
  induction s using patchAll.induct patch with
  | case1 =>
    intro c final
    rw [patchAll] at final
    cases final
  | case2 c s n written found ih =>
    obtain ⟨d, rfl, darkD⟩ := dark _ _ _ found
    have behind := ih fun e final => by
      rw [List.getLast?_drop] at final
      split at final
      · cases final
      · exact ends e (by rw [List.getLast?_cons, final]; rfl)
    intro e final
    have whole : patchAll patch (c :: s) = d :: patchAll patch (s.drop (n - 1)) := by
      rw [patchAll, found]
      rfl
    rw [whole, List.getLast?_cons] at final
    cases left : (patchAll patch (s.drop (n - 1))).getLast? with
    | none =>
      rw [left] at final
      obtain rfl := Option.some.inj final
      exact darkD
    | some f =>
      rw [left] at final
      obtain rfl := Option.some.inj final
      exact behind f left
  | case3 c s quiet ih =>
    have behind := ih fun e final => ends e (by rw [List.getLast?_cons, final]; rfl)
    intro e final
    rw [patchAll_of_none quiet, List.getLast?_cons] at final
    cases left : (patchAll patch s).getLast? with
    | none =>
      obtain rfl := dark.eq_nil (List.getLast?_eq_none_iff.mp left)
      rw [left] at final
      obtain rfl := Option.some.inj final
      exact ends c rfl
    | some f =>
      rw [left] at final
      obtain rfl := Option.some.inj final
      exact behind f left

theorem PutsDark.neat (neat : s.Neat) : (patchAll patch s).Neat := by
  obtain ⟨some, head, last⟩ := neat
  obtain ⟨c, rest, rfl⟩ := List.exists_cons_of_ne_nil some
  obtain ⟨d, rest', whole, darkD⟩ := dark.head rest (head c rfl)
  refine ⟨by simp [whole], fun e first => ?_, dark.last last⟩
  rw [whole] at first
  obtain rfl := Option.some.inj first
  exact darkD

end

end Text

namespace Entity

/-- No entity stands for white space, and none is empty. -/
theorem table_dark : ∀ entry ∈ table, entry.1 ≠ [] ∧ Text.isBlank entry.2 = false := by decide

/-- Decoding makes no white space and leaves something of what there was. -/
theorem neat_decode {s : Text} (neat : s.Neat) : (decode s).Neat := by
  have each : ∀ entries : List (Text × Char),
    (∀ entry ∈ entries, entry.1 ≠ [] ∧ Text.isBlank entry.2 = false) →
      ∀ s : Text, s.Neat → (entries.foldl
        (fun s entry => Text.replaceAll entry.1 [entry.2] s) s).Neat := by
    intro entries dark
    induction entries with
    | nil => exact fun _ neat => neat
    | cons entry entries ih =>
      intro s neat
      obtain ⟨entity, c⟩ := entry
      obtain ⟨filled, darkC⟩ := dark (entity, c) List.mem_cons_self
      refine ih (fun other inside => dark other (List.mem_cons_of_mem _ inside)) _ ?_
      have whole : Text.replaceAll entity [c] s = Text.patchAll (fun rest =>
          if entity.isPrefixOf rest then some (entity.length, [c]) else none) s :=
        if_neg (by simpa using filled)
      simp only [whole]
      refine Text.PutsDark.neat (fun s n written found => ⟨c, ?_, darkC⟩) neat
      split at found
      · exact (Prod.mk.inj (Option.some.inj found)).2.symm
      · cases found
  exact each table table_dark s neat

theorem decode_nil : decode [] = [] := by cbv

end Entity

theorem nonempty?_eq_some {s t : Text} (found : nonempty? s = some t) : s = t ∧ t ≠ [] := by
  unfold nonempty? at found
  split at found
  · cases found
  · rename_i filled
    obtain rfl := Option.some.inj found
    exact ⟨rfl, fun none => filled (List.isEmpty_iff.mpr none)⟩

namespace Block

variable {block : Block} {list : List String} {s : Text}

theorem neat_value? (found : block.value? list = some s) : s.Neat := by
  obtain ⟨name, _, found⟩ := List.exists_of_findSome?_eq_some found
  obtain ⟨value, _, trimmed⟩ := Option.bind_eq_some_iff.mp found
  exact Text.neat_of_trimmed? trimmed

theorem neat_bodyText? (found : block.bodyText? = some s) : s.Neat := by
  obtain ⟨body, _, filled⟩ := Option.bind_eq_some_iff.mp found
  obtain ⟨rfl, some⟩ := nonempty?_eq_some filled
  exact Entity.neat_decode (Text.neat_trim fun none => some (by rw [none, Entity.decode_nil]))

theorem neat_valueOrBody? (found : block.valueOrBody? list = some s) : s.Neat := by
  rcases Option.or_eq_some_iff.mp found with value | ⟨_, body⟩
  · obtain ⟨raw, held, rfl⟩ := Option.map_eq_some_iff.mp value
    exact Entity.neat_decode (neat_value? held)
  · exact neat_bodyText? body

theorem payload?_ne_nil (found : block.payload? = some s) : s ≠ [] := by
  obtain ⟨body, _, filled⟩ := Option.bind_eq_some_iff.mp found
  exact (nonempty?_eq_some filled).2

end Block

namespace Action

/-- A string in which there is something, with no white space around it. -/
def Neat (s : String) : Prop := Text.Neat s.toList

theorem neat_ofList {s : Text} (neat : s.Neat) : Neat (String.ofList s) := by
  rwa [Neat, String.toList_ofList]

theorem ofList_ne_empty {s : Text} (some : s ≠ []) : String.ofList s ≠ "" := by
  intro none
  have same := congrArg String.toList none
  rw [String.toList_ofList] at same
  exact some same

/-- What is asked of an action before it is carried out. -/
def WellFormed : Action → Prop
  | read window => Neat window.path
  | write file => Neat file.path
  | create file => Neat file.path
  | edit change => Neat change.path
  | bash call => Neat call.command
  | grep search => Neat search.pattern
  | glob search => Neat search.pattern
  | list listing => Neat listing.path
  | fetch retrieval => Neat retrieval.url
  | schedule job => Neat job.name ∧ Neat job.payload ∧ (Text.words job.cron.toList).length ∈ [5, 6]
  | unschedule name => Neat name
  | notify notice => Neat notice.message
  | say text => text ≠ ""
  | finish summary => ∀ text, summary = some text → text ≠ ""
  | skill call => Neat call.name
  | task delegation => delegation.prompt ≠ ""
  | plan agenda => agenda.steps ≠ []
  | telegram settings => settings.botToken.isSome ∨ settings.chatId.isSome ∨ settings.enabled.isSome
  | discord settings =>
    settings.botToken.isSome ∨ settings.channelId.isSome ∨ settings.webhookUrl.isSome ∨
      settings.enabled.isSome

end Action

namespace Family

open MarkupActions.Action (neat_ofList ofList_ne_empty)

def MakesWell (action? : Block → Option Action) : Prop :=
  ∀ block action, action? block = some action → action.WellFormed

/-- A reader that makes a well-formed action of each text it finds makes no others. -/
theorem makesWell_map {text? : Block → Option Text} {make : Block → Text → Action}
    (made : ∀ block s, text? block = some s → (make block s).WellFormed) :
    MakesWell fun block => (text? block).map (make block) := by
  intro block action found
  obtain ⟨s, held, rfl⟩ := Option.map_eq_some_iff.mp found
  exact made block s held

theorem neat_bodyPath? {block : Block} {path : Text} (found : bodyPath? block = some path) :
    path.Neat := by
  obtain ⟨body, _, inner⟩ := Option.bind_eq_some_iff.mp found
  obtain ⟨path, trimmed, plain⟩ := Option.bind_eq_some_iff.mp inner
  split at plain
  · cases plain
  · obtain rfl := Option.some.inj plain
    exact Text.neat_of_trimmed? trimmed

theorem read_makesWell : MakesWell readAction? := by
  refine makesWell_map fun block path found => neat_ofList ?_
  rcases Option.or_eq_some_iff.mp found with value | ⟨_, body⟩
  · exact Block.neat_value? value
  · exact neat_bodyPath? body

/-- A value or else a body is neat, so an action that is made of it is well-formed if no more is
asked. -/
theorem valueOrBody_makesWell {list : List String} {make : Block → Text → Action}
    (made : ∀ block s, s.Neat → (make block s).WellFormed) :
    MakesWell fun block => (block.valueOrBody? list).map (make block) :=
  makesWell_map fun block s found => made block s (Block.neat_valueOrBody? found)

theorem bash_makesWell : MakesWell bashAction? :=
  valueOrBody_makesWell fun _ _ neat => neat_ofList neat

theorem grep_makesWell : MakesWell grepAction? :=
  valueOrBody_makesWell fun _ _ neat => neat_ofList neat

theorem glob_makesWell : MakesWell globAction? :=
  valueOrBody_makesWell fun _ _ neat => neat_ofList neat

theorem unschedule_makesWell : MakesWell unscheduleAction? :=
  valueOrBody_makesWell fun _ _ neat => neat_ofList neat

theorem notify_makesWell : MakesWell notifyAction? :=
  valueOrBody_makesWell fun _ _ neat => neat_ofList neat

theorem skill_makesWell : MakesWell skillAction? :=
  makesWell_map fun _ _ held => neat_ofList (Block.neat_value? held)

theorem say_makesWell : MakesWell sayAction? :=
  makesWell_map fun _ _ held => ofList_ne_empty (Block.payload?_ne_nil held)

theorem task_makesWell : MakesWell taskAction? :=
  makesWell_map fun _ _ held => ofList_ne_empty (Block.payload?_ne_nil held)

theorem listAction_wellFormed (block : Block) : (listAction block).WellFormed := by
  refine neat_ofList ?_
  cases named : (block.value? ["path", "dir"]).or block.bodyText? with
  | none => exact ⟨by simp, by simp [Text.isBlank], by simp [Text.isBlank]⟩
  | some path =>
    rcases Option.or_eq_some_iff.mp named with value | ⟨_, body⟩
    · exact Block.neat_value? value
    · exact Block.neat_bodyText? body

theorem fetch_makesWell : MakesWell fetchAction? := by
  intro block action found
  unfold fetchAction? at found
  split at found
  · rename_i url held
    obtain rfl := Option.some.inj found
    exact neat_ofList (Entity.neat_decode (Block.neat_value? held))
  · obtain ⟨url, body, inner⟩ := Option.bind_eq_some_iff.mp found
    split at inner
    · obtain rfl := Option.some.inj inner
      exact neat_ofList (Block.neat_bodyText? body)
    · cases inner

theorem schedule_makesWell : MakesWell scheduleAction? := by
  intro block action found
  unfold scheduleAction? at found
  obtain ⟨name, named, found⟩ := Option.bind_eq_some_iff.mp found
  obtain ⟨cron, _, found⟩ := Option.bind_eq_some_iff.mp found
  obtain ⟨payload, filled, found⟩ := Option.bind_eq_some_iff.mp found
  split at found
  · rename_i timed
    obtain rfl := Option.some.inj found
    refine ⟨neat_ofList (Block.neat_value? named), neat_ofList (Block.neat_bodyText? filled), ?_⟩
    simpa [isCron] using timed
  · cases found

theorem finishAction_wellFormed (block : Block) : (finishAction block).WellFormed := by
  intro text held
  obtain ⟨summary, found, rfl⟩ := Option.map_eq_some_iff.mp held
  rcases Option.or_eq_some_iff.mp found with payload | ⟨_, value⟩
  · exact ofList_ne_empty (Block.payload?_ne_nil payload)
  · exact ofList_ne_empty (Block.neat_value? value).some

theorem plan_makesWell : MakesWell planAction? := by
  intro block action found
  unfold planAction? at found
  split at found
  · cases found
  · rename_i some
    obtain rfl := Option.some.inj found
    exact fun none => some (List.map_eq_nil_iff.mp none)

theorem telegram_makesWell : MakesWell telegramAction? := by
  intro block action found
  unfold telegramAction? at found
  simp only at found
  split at found
  · cases found
  · rename_i some
    obtain rfl := Option.some.inj found
    simp only [TelegramSettings.mk.injEq, not_and_or] at some
    simpa [Action.WellFormed, Option.isSome_iff_ne_none] using some

theorem discord_makesWell : MakesWell discordAction? := by
  intro block action found
  unfold discordAction? at found
  simp only at found
  split at found
  · cases found
  · rename_i some
    obtain rfl := Option.some.inj found
    simp only [DiscordSettings.mk.injEq, not_and_or] at some
    simpa [Action.WellFormed, Option.isSome_iff_ne_none] using some

/-- The path of a block that has a path and a body is neat if the one it may inherit is. -/
theorem neat_pathAndBody? {inherited : Option Text} {block : Block} {path body : Text}
    (neat : ∀ path, inherited = some path → path.Neat)
    (found : pathAndBody? inherited block = some (path, body)) :
    path.Neat := by
  obtain ⟨named, held, inner⟩ := Option.bind_eq_some_iff.mp found
  obtain ⟨_, _, same⟩ := Option.bind_eq_some_iff.mp inner
  obtain ⟨rfl, _⟩ := Prod.mk.inj (Option.some.inj same)
  rcases Option.or_eq_some_iff.mp held with value | ⟨_, outer⟩
  · exact Block.neat_value? value
  · exact neat _ outer

theorem neat_file? {screening : Screening} {block : Block} {file : FileContent}
    (found : file? screening block = some file) : Action.Neat file.path := by
  obtain ⟨⟨path, body⟩, held, inner⟩ := Option.bind_eq_some_iff.mp found
  simp only at inner
  split at inner
  · cases inner
  · obtain rfl := Option.some.inj inner
    exact neat_ofList (neat_pathAndBody? (fun _ outer => by cases outer) held)

theorem edits_wellFormed {screening : Screening} {inherited : Option Text} {block : Block}
    {action : Action}
    (neat : ∀ path, inherited = some path → path.Neat)
    (found : action ∈ edits screening inherited block) :
    action.WellFormed := by
  unfold edits at found
  split at found
  · cases found
  · rename_i held
    split at found
    · cases found
    · obtain ⟨change, _, rfl⟩ := List.mem_map.mp found
      exact neat_ofList (neat_pathAndBody? neat held)

theorem editActions_wellFormed {screening : Screening} {block : Block} {action : Action}
    (found : action ∈ editActions screening block) : action.WellFormed := by
  unfold editActions multiEdits at found
  split at found
  · split at found
    · cases found
    · obtain ⟨inner, _, found⟩ := List.mem_flatMap.mp found
      exact edits_wellFormed (fun _ outer => Block.neat_value? outer) found
  · exact edits_wellFormed (fun _ outer => by cases outer) found

theorem wellFormed_of_mem_filterMap {action? : Block → Option Action} (well : MakesWell action?)
    {blocks : List Block}
    {action : Action} (found : action ∈ blocks.filterMap action?) : action.WellFormed := by
  obtain ⟨block, _, made⟩ := List.mem_filterMap.mp found
  exact well block action made

/-- A built-in family finds no actions but well-formed ones, whatever the text. -/
theorem builtIn_wellFormed {family : Family} (member : family ∈ builtIn) {screening : Screening}
    {s : Text}
    {action : Action} (found : action ∈ family.extract screening s) : action.WellFormed := by
  simp only [builtIn, List.mem_cons, List.not_mem_nil, or_false] at member
  rcases member with rfl | rfl | rfl | rfl | rfl | rfl | rfl | rfl | rfl | rfl | rfl | rfl | rfl
    | rfl | rfl |
    rfl | rfl | rfl | rfl
  · obtain ⟨file, inside, rfl⟩ := List.mem_map.mp found
    obtain ⟨block, _, held⟩ := List.mem_filterMap.mp inside
    exact neat_file? held
  · obtain ⟨file, inside, rfl⟩ := List.mem_map.mp found
    obtain ⟨block, _, held⟩ := List.mem_filterMap.mp inside
    exact neat_file? held
  · obtain ⟨block, _, made⟩ := List.mem_flatMap.mp found
    exact editActions_wellFormed made
  · exact wellFormed_of_mem_filterMap say_makesWell found
  · obtain ⟨block, _, rfl⟩ := List.mem_map.mp found
    exact finishAction_wellFormed block
  · exact wellFormed_of_mem_filterMap task_makesWell found
  · exact wellFormed_of_mem_filterMap plan_makesWell found
  · exact wellFormed_of_mem_filterMap read_makesWell found
  · exact wellFormed_of_mem_filterMap bash_makesWell found
  · exact wellFormed_of_mem_filterMap grep_makesWell found
  · exact wellFormed_of_mem_filterMap glob_makesWell found
  · obtain ⟨block, _, rfl⟩ := List.mem_map.mp found
    exact listAction_wellFormed block
  · exact wellFormed_of_mem_filterMap fetch_makesWell found
  · exact wellFormed_of_mem_filterMap schedule_makesWell found
  · exact wellFormed_of_mem_filterMap unschedule_makesWell found
  · exact wellFormed_of_mem_filterMap notify_makesWell found
  · exact wellFormed_of_mem_filterMap skill_makesWell found
  · exact wellFormed_of_mem_filterMap telegram_makesWell found
  · exact wellFormed_of_mem_filterMap discord_makesWell found

end Family

namespace Staging

variable {State : Type} {action : Action}

/-- Of well-formed actions none is refused, for a command is all that is ever looked at. -/
theorem stage_wellFormed (well : action.WellFormed) :
    stage action = .done ("Staged: " ++ action.label) := by
  refine if_neg ?_
  cases action with
  | bash call =>
    obtain ⟨c, rest, whole⟩ := List.exists_cons_of_ne_nil (Text.Neat.some well)
    have dark := Text.Neat.head well c (by rw [whole]; rfl)
    have inside : c ∈ Text.trim call.command.toList :=
      Text.mem_trim (by rw [whole]; exact List.mem_cons_self) dark
    simpa [isBlankCommand] using List.ne_nil_of_mem inside
  | _ => exact Bool.false_ne_true

/-- Each of them succeeds in its turn, and the state stays as it is. -/
theorem run_wellFormed {actions : List Action} (well : ∀ action ∈ actions, action.WellFormed)
    (state : State) :
    (handlers State).run false actions state =
      (actions.map fun action => ActionResult.ok action.label ("Staged: " ++ action.label),
        state) := by
  induction actions with
  | nil => rfl
  | cons action actions ih =>
    have first : (handlers State).runOne action state =
        (some (.ok action.label ("Staged: " ++ action.label)), state) := by
      have staged := stage_wellFormed (well action List.mem_cons_self)
      have served : handlers State action.kind = some fun action state => (stage action, state) :=
        rfl
      rw [HandlerTable.runOne_of_some served, staged]
      rfl
    rw [HandlerTable.run_cons, first, ih fun other inside =>
      well other (List.mem_cons_of_mem _ inside)]
    rfl

end Staging

namespace ParserSettings

open CommandLine (actionsOf)

/-- Whatever the settings and the text: every action is well-formed, and staged one after the other
all of them succeed. -/
theorem actionsOf_wellFormed (settings : ParserSettings) (text : Text) :
    (∀ action ∈ actionsOf settings text, action.WellFormed) ∧
      ∀ (State : Type) (state : State),
        let (results, after) := (Staging.handlers State).run false (actionsOf settings text) state
        results.map (·.action) = (actionsOf settings text).map Action.label ∧
          (∀ result ∈ results, result.success = true) ∧ after = state := by
  have well : ∀ action ∈ actionsOf settings text, action.WellFormed := by
    intro action found
    obtain ⟨family, inside, t, found⟩ := Registry.mem_readWorking found
    exact Family.builtIn_wellFormed (List.mem_filter.mp inside).1 found
  refine ⟨well, fun State state => ?_⟩
  rw [Staging.run_wellFormed well state]
  refine ⟨?_, ?_, rfl⟩
  · rw [List.map_map]
    rfl
  · intro result inside
    obtain ⟨action, _, rfl⟩ := List.mem_map.mp inside
    rfl

end ParserSettings

end MarkupActions
