import Mathlib

/-!
# Machines and their runs

A concurrent protocol is modelled as a machine: a state, a set of actions
(one atomic step of one party each) and a partial step function that may emit
an observable event.  A run interleaves the actions in any order; this file
packages the induction over runs, the replay of a concrete schedule, and the
passage from "some internal step is always enabled" to "every run can be
completed".
-/

namespace Citor.Interleaving

/-- A machine is its step function: `none` says the action is not enabled. -/
structure Machine (State Action Event : Type*) where
  step : State → Action → Option (State × Option Event)

variable {State Action Event : Type*}

/-- `Run machine allowed start trace state`: from `start` the machine reaches
`state` by steps that were `allowed` where they were taken, and `trace` lists
the events those steps emitted, oldest first. -/
inductive Run (machine : Machine State Action Event)
    (allowed : State → Action → Prop) (start : State) :
    List Event → State → Prop
  | start : Run machine allowed start [] start
  | next {trace before action after event} :
      Run machine allowed start trace before → allowed before action →
      machine.step before action = some (after, event) →
      Run machine allowed start (trace ++ event.toList) after

/-- Runs whose steps are not restricted. -/
abbrev Reaches (machine : Machine State Action Event) :
    State → List Event → State → Prop :=
  Run machine fun _ _ => True

section Invariants

variable {machine : Machine State Action Event}
variable {allowed : State → Action → Prop} {start : State}

theorem Run.unrestricted {trace : List Event} {state : State}
    (run : Run machine allowed start trace state) :
    Reaches machine start trace state := by
  induction run with
  | start => exact .start
  | next _ _ hstep ih => exact .next ih trivial hstep

theorem Run.mono {wider : State → Action → Prop}
    (hwider : ∀ state action, allowed state action → wider state action)
    {trace : List Event} {state : State}
    (run : Run machine allowed start trace state) :
    Run machine wider start trace state := by
  induction run with
  | start => exact .start
  | next _ hallowed hstep ih => exact .next ih (hwider _ _ hallowed) hstep

/-- The invariant rule: what holds at the start and is kept by every allowed
step holds after every run. -/
theorem Run.invariant (motive : List Event → State → Prop)
    (hstart : motive [] start)
    (hnext : ∀ {trace before action after event},
      motive trace before → allowed before action →
      machine.step before action = some (after, event) →
      motive (trace ++ event.toList) after)
    {trace : List Event} {state : State}
    (run : Run machine allowed start trace state) : motive trace state := by
  induction run with
  | start => exact hstart
  | next _ hallowed hstep ih => exact hnext ih hallowed hstep

/-- A run passes through a state behind every front part of its trace. -/
theorem Run.cut {earlier later : List Event} {state : State}
    (run : Run machine allowed start (earlier ++ later) state) :
    ∃ middle, Run machine allowed start earlier middle := by
  generalize htrace : earlier ++ later = trace at run
  induction run generalizing later with
  | start =>
      obtain ⟨rfl, -⟩ := List.append_eq_nil_iff.1 htrace
      exact ⟨start, .start⟩
  | @next trace before action after event run hallowed hstep ih =>
      cases event with
      | none => exact ih (by simpa using htrace)
      | some last =>
          rcases List.eq_nil_or_concat later with rfl | ⟨rest, final, rfl⟩
          · rw [List.append_nil] at htrace
            exact ⟨after, htrace ▸ .next run hallowed hstep⟩
          · have hsplit : (earlier ++ rest) ++ [final] = trace ++ [last] := by
              simpa using htrace
            exact ih (List.append_inj' hsplit rfl).1

/-- What holds whenever an event is emitted holds of the trace before each
occurrence of that event. -/
theorem Run.at_event (motive : List Event → State → Prop)
    (property : List Event → Event → Prop)
    (hmotive : ∀ {trace state}, Run machine allowed start trace state →
      motive trace state)
    (hemit : ∀ {trace before action after event},
      motive trace before → allowed before action →
      machine.step before action = some (after, some event) →
      property trace event)
    {trace : List Event} {state : State}
    (run : Run machine allowed start trace state) :
    ∀ earlier event later, trace = earlier ++ event :: later →
      property earlier event := by
  induction run with
  | start =>
      intro earlier event later heq
      simp at heq
  | @next trace before action after emitted run hallowed hstep ih =>
      intro earlier event later heq
      cases emitted with
      | none => exact ih earlier event later (by simpa using heq)
      | some last =>
          rcases List.eq_nil_or_concat later with rfl | ⟨rest, final, rfl⟩
          · obtain ⟨htrace, hlast⟩ := List.append_inj' heq rfl
            obtain rfl : last = event := by simpa using hlast
            subst htrace
            exact hemit (hmotive run) hallowed hstep
          · have hsplit : trace ++ [last] =
                (earlier ++ event :: rest) ++ [final] := by
              simpa using heq
            exact ih earlier event rest (List.append_inj' hsplit rfl).1

end Invariants

/-! ## Replaying a schedule -/

/-- Run a fixed schedule, collecting the events. -/
def exec (machine : Machine State Action Event) :
    State → List Action → Option (State × List Event)
  | state, [] => some (state, [])
  | state, action :: rest => do
      let (after, event) ← machine.step state action
      let (final, events) ← exec machine after rest
      return (final, event.toList ++ events)

/-- Replaying a schedule whose steps are all allowed extends a run. -/
theorem Run.replay {machine : Machine State Action Event}
    {allowed : State → Action → Prop} {start : State}
    (hallowed : ∀ state action, allowed state action)
    {trace : List Event} {state final : State} {events : List Event}
    {schedule : List Action}
    (run : Run machine allowed start trace state)
    (hexec : exec machine state schedule = some (final, events)) :
    Run machine allowed start (trace ++ events) final := by
  induction schedule generalizing trace state events with
  | nil =>
      simp only [exec, Option.some.injEq, Prod.mk.injEq] at hexec
      obtain ⟨rfl, rfl⟩ := hexec
      simpa using run
  | cons action rest ih =>
      simp only [exec, Option.bind_eq_bind, Option.bind_eq_some_iff] at hexec
      obtain ⟨⟨after, event⟩, hstep, ⟨last, tail⟩, hrest, hfinal⟩ := hexec
      simp only [Option.pure_def, Option.some.injEq, Prod.mk.injEq] at hfinal
      obtain ⟨rfl, rfl⟩ := hfinal
      have hnext := ih (.next run (hallowed state action) hstep) hrest
      simpa [List.append_assoc] using hnext

/-- A schedule that replays to the end is a run. -/
theorem reaches_of_exec {machine : Machine State Action Event}
    {start final : State} {events : List Event} (schedule : List Action)
    (hexec : exec machine start schedule = some (final, events)) :
    Reaches machine start events final := by
  simpa using Run.start.replay (fun _ _ => trivial) hexec

/-- What a replayed schedule ends in, read off by a decidable test. -/
theorem reaches_of_check (machine : Machine State Action Event)
    (start : State) (schedule : List Action)
    (check : List Event → State → Bool)
    (hcheck : (exec machine start schedule).map
      (fun outcome => check outcome.2 outcome.1) = some true) :
    ∃ trace state, Reaches machine start trace state ∧
      check trace state = true := by
  cases hexec : exec machine start schedule with
  | none => simp [hexec] at hcheck
  | some outcome =>
      refine ⟨outcome.2, outcome.1, reaches_of_exec schedule hexec, ?_⟩
      simpa [hexec] using hcheck

/-- Run a fixed schedule as long as a test passes in front of every step. -/
def execChecked (machine : Machine State Action Event)
    (check : State → Action → Bool) :
    State → List Action → Option (State × List Event)
  | state, [] => some (state, [])
  | state, action :: rest =>
      if check state action then do
        let (after, event) ← machine.step state action
        let (final, events) ← execChecked machine check after rest
        return (final, event.toList ++ events)
      else none

/-- A schedule whose tests pass is a run of allowed steps, where the test is
sound in the states that an invariant describes. -/
theorem Run.replay_checked {machine : Machine State Action Event}
    {allowed : State → Action → Prop} {check : State → Action → Bool}
    (good : State → Prop)
    (hsound : ∀ {state action}, good state → check state action = true →
      allowed state action)
    (hkeep : ∀ {before action after event}, good before →
      check before action = true →
      machine.step before action = some (after, event) → good after)
    {start state final : State} {trace events : List Event}
    {schedule : List Action} (hgood : good state)
    (run : Run machine allowed start trace state)
    (hexec : execChecked machine check state schedule =
      some (final, events)) :
    Run machine allowed start (trace ++ events) final := by
  induction schedule generalizing trace state events with
  | nil =>
      simp only [execChecked, Option.some.injEq, Prod.mk.injEq] at hexec
      obtain ⟨rfl, rfl⟩ := hexec
      simpa using run
  | cons action rest ih =>
      unfold execChecked at hexec
      split at hexec
      next hcheck =>
        simp only [Option.bind_eq_bind, Option.bind_eq_some_iff] at hexec
        obtain ⟨⟨after, event⟩, hstep, ⟨last, tail⟩, hrest, hfinal⟩ := hexec
        simp only [Option.pure_def, Option.some.injEq, Prod.mk.injEq] at hfinal
        obtain ⟨rfl, rfl⟩ := hfinal
        have hnext := ih (hkeep hgood hcheck hstep)
          (.next run (hsound hgood hcheck) hstep) hrest
        simpa [List.append_assoc] using hnext
      next => simp at hexec

/-- What a schedule whose tests pass ends in. -/
theorem run_of_checked (machine : Machine State Action Event)
    {allowed : State → Action → Prop} (check : State → Action → Bool)
    (good : State → Prop)
    (hsound : ∀ {state action}, good state → check state action = true →
      allowed state action)
    (hkeep : ∀ {before action after event}, good before →
      check before action = true →
      machine.step before action = some (after, event) → good after)
    (start : State) (hgood : good start) (schedule : List Action)
    (accept : List Event → State → Bool)
    (haccept : (execChecked machine check start schedule).map
      (fun outcome => accept outcome.2 outcome.1) = some true) :
    ∃ trace state, Run machine allowed start trace state ∧
      accept trace state = true := by
  cases hexec : execChecked machine check start schedule with
  | none => simp [hexec] at haccept
  | some outcome =>
      have run := Run.start.replay_checked good hsound hkeep hgood hexec
      exact ⟨outcome.2, outcome.1, by simpa using run, by
        simpa [hexec] using haccept⟩

/-! ## Completion

`internal` separates the parties' own steps from what the environment does
(a stop request, for instance).  A measure that every internal step lowers
and a proof that some internal step is enabled until the end together say
that the protocol cannot get stuck. -/

section Completion

variable {machine : Machine State Action Event}
variable {internal : Action → Prop} {final : State → Prop}

/-- If no reachable state is stuck and internal steps lower a measure, every
state can be driven to a final one by internal steps alone. -/
theorem exists_completion (measure : State → ℕ) (invariant : State → Prop)
    (hprogress : ∀ state, invariant state → ¬ final state →
      ∃ action after event, internal action ∧
        machine.step state action = some (after, event))
    (hkeep : ∀ state action after event, invariant state → internal action →
      machine.step state action = some (after, event) → invariant after)
    (hless : ∀ state action after event, invariant state → internal action →
      machine.step state action = some (after, event) →
      measure after < measure state)
    {state : State} (hstate : invariant state) :
    ∃ trace last, Run machine (fun _ action => internal action) state trace last ∧
      final last := by
  suffices haux : ∀ bound start (trace : List Event) current,
      measure current ≤ bound → invariant current →
      Run machine (fun _ action => internal action) start trace current →
      ∃ trace last, Run machine (fun _ action => internal action) start trace last ∧
        final last from haux _ state [] state le_rfl hstate .start
  intro bound
  induction bound with
  | zero =>
      intro start trace current hbound hinv run
      by_cases hfinal : final current
      · exact ⟨trace, current, run, hfinal⟩
      · obtain ⟨action, after, event, hinternal, hstep⟩ :=
          hprogress current hinv hfinal
        have := hless current action after event hinv hinternal hstep
        omega
  | succ bound ih =>
      intro start trace current hbound hinv run
      by_cases hfinal : final current
      · exact ⟨trace, current, run, hfinal⟩
      · obtain ⟨action, after, event, hinternal, hstep⟩ :=
          hprogress current hinv hfinal
        have hlower := hless current action after event hinv hinternal hstep
        exact ih start _ after (by omega)
          (hkeep current action after event hinv hinternal hstep)
          (.next run hinternal hstep)

end Completion

end Citor.Interleaving
