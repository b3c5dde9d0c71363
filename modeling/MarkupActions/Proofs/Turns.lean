import Mathlib.Data.List.Forall2
import MarkupActions.Dispatch

/-!
# Turns

What a run does, told as a relation: each action whose kind has a handler takes one turn, on the
state that the turn before it has left, and all other actions are passed over. How a turn ends is
written down and has no other effect. A log is whatever of the state the handlers only add to;
nothing is asked of the rest of it.
-/

namespace MarkupActions

/-- One turn of a handler: its action, the state it was given, what it came to and the state it
left. -/
structure Turn (State : Type) where
  action : Action
  before : State
  outcome : HandlerOutcome
  after : State

namespace Turn

variable {State Entry : Type}

def report (turn : Turn State) : ActionResult := turn.outcome.report turn.action.label

/-- Two turns with one action and one effect, whatever each of them came to. -/
def SameCall (turn other : Turn State) : Prop :=
  turn.action = other.action ∧ turn.before = other.before ∧ turn.after = other.after

def segment (log : State → List Entry) (turn : Turn State) : List Entry :=
  (log turn.after).drop (log turn.before).length

end Turn

namespace ActionResult

/-- An error is given exactly where there was no success, and then it is what the result speaks of.
-/
def Sound (result : ActionResult) : Prop :=
  (result.error.isSome = true ↔ result.success = false) ∧
    ∀ error, result.error = some error → result.result = "Error: " ++ error

end ActionResult

theorem Turn.report_action {State : Type} (turn : Turn State) :
    turn.report.action = turn.action.label := by
  unfold report
  cases turn.outcome <;> rfl

theorem HandlerOutcome.report_sound (outcome : HandlerOutcome) (label : String) :
    (outcome.report label).Sound := by
  cases outcome with
  | done text => exact ⟨by simp [report, ActionResult.ok], by simp [report, ActionResult.ok]⟩
  | refused error =>
    exact ⟨by simp [report, ActionResult.failed], by simp [report, ActionResult.failed]⟩
  | panicked text =>
    exact ⟨by simp [report, ActionResult.failed], by simp [report, ActionResult.failed]⟩

namespace HandlerTable

variable {State Entry : Type} {table other : HandlerTable State} {actions : List Action}
    {state last : State}
  {turns : List (Turn State)}

theorem mem_wired {kind : Kind} : kind ∈ table.wired ↔ (table kind).isSome = true := by
  rw [wired, List.mem_filter]
  exact and_iff_right kind.mem_all

theorem not_mem_wired {kind : Kind} : kind ∉ table.wired ↔ table kind = none := by
  rw [mem_wired, Bool.not_eq_true, Option.isSome_eq_false_iff, Option.isNone_iff_eq_none]

/-- The turns that a table takes over some actions, with the state before the first and after the
last of them. -/
inductive Takes (table : HandlerTable State) :
    List Action → State → List (Turn State) → State → Prop where
  | done {state : State} : Takes table [] state [] state
  | passed {action : Action} {actions : List Action} {state last : State}
      {turns : List (Turn State)}
      (unserved : table action.kind = none) (later : Takes table actions state turns last) :
      Takes table (action :: actions) state turns last
  | taken {action : Action} {actions : List Action} {state next last : State}
      {turns : List (Turn State)}
      {handler : Handler State} {outcome : HandlerOutcome}
        (served : table action.kind = some handler)
      (came : handler action state = (outcome, next))
        (later : Takes table actions next turns last) :
      Takes table (action :: actions) state (⟨action, state, outcome, next⟩ :: turns) last

/-- No handler takes anything off a log or changes what stands in it. -/
def Appends (table : HandlerTable State) (log : State → List Entry) : Prop :=
  ∀ kind handler, table kind = some handler →
    ∀ action state, log state <+: log (handler action state).2

/-- Two tables with handlers for the same kinds and of the same effect, though they may come to
other outcomes. -/
structure SameEffects (table other : HandlerTable State) : Prop where
  wired : table.wired = other.wired
  effect : ∀ action state, (table.runOne action state).2 = (other.runOne action state).2

theorem runOne_of_none {action : Action} (unserved : table action.kind = none) (state : State) :
    table.runOne action state = (none, state) := by
  simp only [runOne, unserved]

theorem runOne_of_some {action : Action} {handler : Handler State}
    (served : table action.kind = some handler)
    (state : State) :
    table.runOne action state =
      (some ((handler action state).1.report action.label), (handler action state).2) := by
  simp only [runOne, served]

/-- Each action is run on the state that those before it have left, and on nothing else of theirs.
-/
theorem run_cons (table : HandlerTable State) (action : Action) (actions : List Action)
    (state : State) :
    table.run false (action :: actions) state =
      ((table.runOne action state).1.toList ++
        (table.run false actions (table.runOne action state).2).1,
        (table.run false actions (table.runOne action state).2).2) := by
  simp only [run, Bool.false_eq_true, if_false, runEach]
  cases (table.runOne action state).1 <;> rfl

theorem run_append (table : HandlerTable State) (front back : List Action) (state : State) :
    table.run false (front ++ back) state =
      ((table.run false front state).1 ++ (table.run false back (table.run false front state).2).1,
        (table.run false back (table.run false front state).2).2) := by
  induction front generalizing state with
  | nil => rfl
  | cons action front ih =>
    rw [List.cons_append, run_cons, run_cons, ih, List.append_assoc]

/-- A run comes to what its turns come to. -/
theorem Takes.run_eq (takes : table.Takes actions state turns last) :
    table.run false actions state = (turns.map Turn.report, last) := by
  induction takes with
  | done => rfl
  | passed unserved _ ih =>
    rw [run_cons, runOne_of_none unserved, ih]
    rfl
  | taken served came _ ih =>
    rw [run_cons, runOne_of_some served, came, ih]
    rfl

/-- Every run is made of turns. -/
theorem exists_takes (table : HandlerTable State) (actions : List Action) (state : State) :
    ∃ turns last, table.Takes actions state turns last := by
  induction actions generalizing state with
  | nil => exact ⟨[], state, .done⟩
  | cons action actions ih =>
    cases served : table action.kind with
    | none =>
      obtain ⟨turns, last, later⟩ := ih state
      exact ⟨turns, last, .passed served later⟩
    | some handler =>
      obtain ⟨turns, last, later⟩ := ih (handler action state).2
      exact ⟨_, last, .taken served rfl later⟩

/-- There is one turn for each action that is served, in the order of the actions. -/
theorem Takes.actions_eq (takes : table.Takes actions state turns last) :
    turns.map Turn.action = actions.filter (·.kind ∈ table.wired) := by
  induction takes with
  | done => rfl
  | passed unserved _ ih =>
    have out := not_mem_wired.mpr unserved
    rw [List.filter_cons_of_neg (by simpa using out), ih]
  | taken served _ _ ih =>
    have inside : _ ∈ table.wired := mem_wired.mpr (by rw [served]; rfl)
    rw [List.filter_cons_of_pos (by simpa using inside), ← ih]
    rfl

/-- A log holds what stood in it and then what each turn has added, one after the other. -/
theorem Takes.log_eq {log : State → List Entry} (appends : table.Appends log)
    (takes : table.Takes actions state turns last) :
    log last = log state ++ turns.flatMap (Turn.segment log) := by
  induction takes with
  | done => simp
  | passed _ _ ih => exact ih
  | @taken action _ state next _ _ handler outcome served came _ ih =>
    obtain ⟨added, grown⟩ := appends _ handler served action state
    rw [came] at grown
    have segment : Turn.segment log ⟨action, state, outcome, next⟩ = added := by
      simp [Turn.segment, ← grown]
    rw [ih, ← grown, List.flatMap_cons, segment, List.append_assoc]

/-- What handlers come to has no part in which turns are taken, and on what. -/
theorem Takes.sameCalls (effects : table.SameEffects other)
    (takes : table.Takes actions state turns last) :
    ∃ turns', other.Takes actions state turns' last ∧ List.Forall₂ Turn.SameCall turns turns' := by
  induction takes with
  | done => exact ⟨[], .done, .nil⟩
  | passed unserved _ ih =>
    obtain ⟨turns', later, same⟩ := ih
    have unserved' := not_mem_wired.mp (effects.wired ▸ not_mem_wired.mpr unserved)
    exact ⟨turns', .passed unserved' later, same⟩
  | @taken action _ state next _ _ handler _ served came _ ih =>
    obtain ⟨turns', later, same⟩ := ih
    have wired : action.kind ∈ other.wired := effects.wired ▸ mem_wired.mpr (by rw [served]; rfl)
    obtain ⟨handler', served'⟩ := Option.isSome_iff_exists.mp (mem_wired.mp wired)
    have effect := effects.effect action state
    rw [runOne_of_some served, runOne_of_some served', came] at effect
    have came' : handler' action state = ((handler' action state).1, next) :=
      Prod.ext rfl effect.symm
    exact ⟨_, .taken served' came' later, .cons ⟨rfl, rfl, rfl⟩ same⟩

/-- One result for each action that is served, in their order; a log of what each of them adds, in
their order; and a run of one action at a time is the run of the first action. What a handler comes
to changes nothing of what comes after. -/
theorem run_turns (table : HandlerTable State) (actions : List Action) (state : State) :
    (∃ turns, table.Takes actions state turns (table.run false actions state).2 ∧
      turns.map Turn.action = actions.filter (·.kind ∈ table.wired) ∧
      (table.run false actions state).1 = turns.map Turn.report ∧
      (∀ (Entry : Type) (log : State → List Entry), table.Appends log →
        log (table.run false actions state).2 = log state ++ turns.flatMap (Turn.segment log)) ∧
      ∀ other : HandlerTable State, table.SameEffects other →
        ∃ turns', other.Takes actions state turns' (table.run false actions state).2 ∧
          other.run false actions state = (turns'.map Turn.report,
            (table.run false actions state).2) ∧
          List.Forall₂ Turn.SameCall turns turns') ∧
    (table.run false actions state).1.map ActionResult.action =
      (actions.filter (·.kind ∈ table.wired)).map Action.label ∧
    (∀ result ∈ (table.run false actions state).1, result.Sound) ∧
    (∀ front back, actions = front ++ back →
      table.run false actions state =
        ((table.run false front state).1 ++
          (table.run false back (table.run false front state).2).1,
          (table.run false back (table.run false front state).2).2)) ∧
    table.run true actions state = table.run false (actions.take 1) state ∧
    ∀ first, actions.head? = some first → first.kind ∉ table.wired →
      table.run true actions state = ([], state) := by
  obtain ⟨turns, last, takes⟩ := table.exists_takes actions state
  have single : table.run true actions state = table.run false (actions.take 1) state := rfl
  rw [takes.run_eq]
  refine ⟨⟨turns, takes, takes.actions_eq, rfl, fun _ _ appends => takes.log_eq appends, ?_⟩, ?_,
    ?_, ?_, single, ?_⟩
  · intro other effects
    obtain ⟨turns', takes', same⟩ := takes.sameCalls effects
    exact ⟨turns', takes', takes'.run_eq, same⟩
  · rw [← takes.actions_eq, List.map_map, List.map_map]
    exact List.map_congr_left fun turn _ => turn.report_action
  · intro result inside
    obtain ⟨turn, _, rfl⟩ := List.mem_map.mp inside
    exact turn.outcome.report_sound turn.action.label
  · rintro front back rfl
    rw [← takes.run_eq, run_append]
  · intro first leads unwired
    obtain ⟨rest, rfl⟩ := List.head?_eq_some_iff.mp leads
    rw [single, List.take_succ_cons, List.take_zero, run_cons,
      runOne_of_none (not_mem_wired.mp unwired)]
    rfl

/-- A handler that writes the label of its action into a log. -/
def noting (outcome : HandlerOutcome) : Handler (List String) :=
  fun action log => (outcome, log ++ [action.label])

/-- Commands panic, files are read, and nothing else is served. -/
def shaken : HandlerTable (List String)
  | .bash => some (noting (.panicked none))
  | .read => some (noting (.done "text"))
  | _ => none

theorem shaken_appends : shaken.Appends id := by
  intro kind handler served action log
  unfold shaken at served
  split at served
  · cases served
    exact List.prefix_append _ _
  · cases served
    exact List.prefix_append _ _
  · cases served

/-- A command that panics and a message that no handler takes are followed by the reading of a file.
-/
theorem run_turns_shaken :
    let actions : List Action := [.bash { command := "ls" }, .say "hi", .read { path := "a" }]
    shaken.Appends id ∧ (shaken.run false actions []).2 = ["Bash: ls", "Read a"] ∧
      ∃ turns, shaken.Takes actions [] turns (shaken.run false actions []).2 ∧
        turns.map Turn.report = [.failed "Bash: ls" "Handler panicked: unknown panic",
          .ok "Read a" "text"] ∧
        (shaken.run false actions []).2 = turns.flatMap (Turn.segment id) := by
  intro actions
  obtain ⟨⟨turns, takes, _, results, logged, _⟩, _⟩ := run_turns shaken actions []
  refine ⟨shaken_appends, by decide +kernel, turns, takes, ?_, logged String id shaken_appends⟩
  rw [← results]
  decide +kernel

end HandlerTable

end MarkupActions
