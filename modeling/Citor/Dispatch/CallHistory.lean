import Citor.Dispatch.BlockOccupancy
import Citor.Dispatch.JobRuns

/-!
# Calls and returns

Calls are dispatched one after another: a generation is taken when all earlier
ones have returned, and at a return nobody is in a block.  So the blocks of a
call have ended when the next call begins.
-/

namespace Citor.JobCaches

open Interleaving
open BlockRunners (RankPc)
open SharedMemory (closed_or_inside matched_of_occupancy)
open WorkerSlots (Dispatch)

/-- The event of a dispatch, or of its return. -/
def Event.bounds : Event → Bool
  | .called .. | .returned .. => true
  | .read .. | .entered .. | .ran .. | .left .. => false

/-- The dispatch that is open: its pool and generation. -/
def State.openDispatch (state : State) : Option (ℕ × ℕ) :=
  state.producer.active.map fun (call, dispatch) =>
    (call.pool, dispatch.generation)

section Steps

variable {program : Program} {state after : State} {event : Option Event}
variable {pool slot : ℕ}

/-- What a step does to the dispatches. -/
inductive CallStep (program : Program) (state after : State) :
    Option Event → Prop
  | called {call : Call} {reuseHint : Bool} :
      state.producer = .begin call reuseHint →
      after.producer = .drain call (state.dispatch program call reuseHint) →
      CallStep program state after (some (.called call.pool
        (state.dispatch program call reuseHint).generation call))
  | returned {call : Call} {dispatch : Dispatch} {slot : ℕ} :
      state.producer = .join call dispatch slot →
      call.participants program ≤ slot → after.producer = .idle →
      CallStep program state after
        (some (.returned call.pool dispatch.generation))
  | within {event : Option Event} :
      after.openDispatch = state.openDispatch →
      event.any Event.bounds = false → CallStep program state after event

theorem workerStep_calls
    (hstep : state.workerStep program pool slot = some (after, event)) :
    CallStep program state after event := by
  have hproducer := (workerStep_moved hstep).producer
  apply CallStep.within (by rw [State.openDispatch, hproducer]; rfl)
  cases event with
  | none => rfl
  | some event =>
      cases hpc : (state.slots (pool, slot)).worker.pc <;>
        simp only [State.workerStep, hpc] at hstep
      all_goals
        repeat' split at hstep
        all_goals simp at hstep
      all_goals grind [Event.bounds]

/-- Between two places of one dispatch, or of none. -/
theorem within_of_active {pc : ProducerPc} (hafter : after.producer = pc)
    (hactive : pc.active = state.producer.active)
    (hevent : event.any Event.bounds = false) :
    CallStep program state after event :=
  .within (by rw [State.openDispatch, hafter, hactive]; rfl) hevent

theorem runRank_calls {call : Call} {generation rank : ℕ}
    {place next : RankPc}
    (hrun : state.runRank program call generation rank place =
      some (after, next, event)) : event.any Event.bounds = false := by
  unfold State.runRank at hrun
  split at hrun
  · simp at hrun
  · obtain ⟨-, -, rfl⟩ := by simpa using hrun
    rfl
  · obtain ⟨-, -, rfl⟩ := by simpa using hrun
    rfl

theorem producerStep_calls
    (hstep : state.producerStep program = some (after, event)) :
    CallStep program state after event := by
  unfold State.producerStep at hstep
  split at hstep
  next => simp at hstep
  next call hpc =>
    split_ifs at hstep
    obtain ⟨rfl, rfl⟩ := Prod.mk.inj (Option.some.inj hstep)
    exact within_of_active rfl (by rw [hpc]; rfl) rfl
  next call field remaining keyMatches hpc =>
    dsimp only at hstep
    split_ifs at hstep <;>
      obtain ⟨rfl, rfl⟩ := Prod.mk.inj (Option.some.inj hstep) <;>
      exact within_of_active rfl (by rw [hpc]; rfl) rfl
  next call keyMatches hpc =>
    dsimp only at hstep
    split at hstep
    · split_ifs at hstep <;>
        obtain ⟨rfl, rfl⟩ := Prod.mk.inj (Option.some.inj hstep) <;>
        exact within_of_active rfl (by rw [hpc]; rfl) rfl
    · obtain ⟨rfl, rfl⟩ := Prod.mk.inj (Option.some.inj hstep)
      exact within_of_active rfl (by rw [hpc]; rfl) rfl
  next call field remaining keyMatches hpc =>
    obtain ⟨rfl, rfl⟩ := Prod.mk.inj (Option.some.inj hstep)
    exact within_of_active rfl (by rw [hpc]; rfl) rfl
  next call keyMatches hpc =>
    obtain ⟨rfl, rfl⟩ := Prod.mk.inj (Option.some.inj hstep)
    exact within_of_active rfl (by rw [hpc]; rfl) rfl
  next call keyMatches hpc =>
    dsimp only at hstep
    split_ifs at hstep <;>
      obtain ⟨rfl, rfl⟩ := Prod.mk.inj (Option.some.inj hstep) <;>
      exact within_of_active rfl (by rw [hpc]; rfl) rfl
  next call reuseHint hpc =>
    obtain ⟨rfl, rfl⟩ := Prod.mk.inj (Option.some.inj hstep)
    exact .called hpc rfl
  next call dispatch hpc =>
    split_ifs at hstep
    obtain ⟨rfl, rfl⟩ := Prod.mk.inj (Option.some.inj hstep)
    exact within_of_active rfl
      ((publishFrom_active _).trans (by rw [hpc]; rfl)) rfl
  next call dispatch slot hpc =>
    obtain ⟨rfl, rfl⟩ := Prod.mk.inj (Option.some.inj hstep)
    exact within_of_active rfl (by rw [hpc]; rfl) rfl
  next call dispatch slot hpc =>
    obtain ⟨rfl, rfl⟩ := Prod.mk.inj (Option.some.inj hstep)
    exact within_of_active rfl
      ((publishFrom_active _).trans (by rw [hpc]; rfl)) rfl
  next call dispatch hpc =>
    obtain ⟨rfl, rfl⟩ := Prod.mk.inj (Option.some.inj hstep)
    exact within_of_active rfl (by rw [hpc]; rfl) rfl
  next call dispatch hpc =>
    obtain ⟨rfl, rfl⟩ := Prod.mk.inj (Option.some.inj hstep)
    exact within_of_active rfl (by rw [hpc]; rfl) rfl
  next call dispatch hpc =>
    obtain ⟨rfl, rfl⟩ := Prod.mk.inj (Option.some.inj hstep)
    exact within_of_active rfl (by rw [hpc]; rfl) rfl
  next call dispatch place hreturned hpc =>
    obtain ⟨⟨middle, place', shown⟩, hrun, hout⟩ :=
      Option.map_eq_some_iff.1 hstep
    obtain ⟨rfl, rfl⟩ := Prod.mk.inj hout
    exact within_of_active rfl (by rw [hpc]; rfl) (runRank_calls hrun)
  next call dispatch slot hpc =>
    split_ifs at hstep with hslot hdone <;>
      obtain ⟨rfl, rfl⟩ := Prod.mk.inj (Option.some.inj hstep)
    · exact within_of_active rfl (by rw [hpc]; rfl) rfl
    · exact .returned hpc (Nat.le_of_not_lt hslot) rfl
  next call dispatch slot hpc =>
    obtain ⟨rfl, rfl⟩ := Prod.mk.inj (Option.some.inj hstep)
    exact within_of_active rfl (by rw [hpc]; rfl) rfl
  next call dispatch slot place hreturned hpc =>
    obtain ⟨⟨middle, place', shown⟩, hrun, hout⟩ :=
      Option.map_eq_some_iff.1 hstep
    obtain ⟨rfl, rfl⟩ := Prod.mk.inj hout
    exact within_of_active rfl (by rw [hpc]; rfl) (runRank_calls hrun)
  next call dispatch slot hpc =>
    dsimp only at hstep
    split_ifs at hstep <;>
      obtain ⟨rfl, rfl⟩ := Prod.mk.inj (Option.some.inj hstep) <;>
      exact within_of_active rfl (by rw [hpc]; rfl) rfl
  next call dispatch slot hpc =>
    obtain ⟨rfl, rfl⟩ := Prod.mk.inj (Option.some.inj hstep)
    exact within_of_active rfl (by rw [hpc]; rfl) rfl

theorem step_calls {action : Action}
    (hstep : step program state action = some (after, event)) :
    CallStep program state after event := by
  cases action with
  | call call =>
      simp only [step] at hstep
      split_ifs at hstep with hcall
      obtain ⟨rfl, rfl⟩ := Prod.mk.inj (Option.some.inj hstep)
      apply within_of_active rfl _ rfl
      rw [hcall.1]
      unfold Call.start
      cases call.primitive program <;> rfl
  | producer => exact producerStep_calls hstep
  | cover =>
      simp only [step, State.coverStep] at hstep
      split at hstep
      next call dispatch slot hpc =>
        split_ifs at hstep
        obtain ⟨rfl, rfl⟩ := Prod.mk.inj (Option.some.inj hstep)
        exact within_of_active rfl (by rw [hpc]; rfl) rfl
      next => simp at hstep
  | poll slot =>
      obtain ⟨pool, -, hstep⟩ := Option.bind_eq_some_iff.1 hstep
      dsimp only at hstep
      split_ifs at hstep
      obtain ⟨rfl, rfl⟩ := Prod.mk.inj (Option.some.inj hstep)
      exact .within rfl rfl
  | producerLeaves =>
      simp only [step, State.producerLeaves] at hstep
      split at hstep
      next hpc =>
        split_ifs at hstep
        obtain ⟨rfl, rfl⟩ := Prod.mk.inj (Option.some.inj hstep)
        exact within_of_active rfl (by rw [hpc]; rfl) rfl
      next hpc =>
        split_ifs at hstep
        obtain ⟨rfl, rfl⟩ := Prod.mk.inj (Option.some.inj hstep)
        exact within_of_active rfl (by rw [hpc]; rfl) rfl
      next => simp at hstep
  | worker pool slot =>
      simp only [step] at hstep
      split_ifs at hstep
      exact workerStep_calls hstep
  | workerLeaves pool slot =>
      simp only [step] at hstep
      split_ifs at hstep
      simp only [State.workerLeaves] at hstep
      split at hstep
      next =>
        split_ifs at hstep
        obtain ⟨rfl, rfl⟩ := Prod.mk.inj (Option.some.inj hstep)
        exact .within rfl rfl
      next => simp at hstep

end Steps

/-! ## Runs of calls -/

section Runs

variable {program : Program} {allowed : State → Action → Prop}
variable {state : State}

/-- What is observed of a run is a run. -/
theorem run_of_observed {trace : List Observation}
    (run : Run (observed program) allowed start trace state) :
    Run (machine program) allowed start (eventsOf trace) state := by
  apply run.invariant fun trace state =>
    Run (machine program) allowed start (eventsOf trace) state
  · exact .start
  · intro trace before action after event hrun hallowed hstep
    obtain ⟨⟨after, shown⟩, hbase, hout⟩ := Option.map_eq_some_iff.1 hstep
    obtain ⟨rfl, rfl⟩ := Prod.mk.inj hout
    have hnext := hrun.next hallowed hbase
    cases shown <;> simpa [eventsOf] using hnext

/-- Every run is observed. -/
theorem exists_observed {trace : List Event}
    (run : Run (machine program) allowed start trace state) :
    ∃ observations, eventsOf observations = trace ∧
      Run (observed program) allowed start observations state := by
  induction run with
  | start => exact ⟨[], rfl, .start⟩
  | @next trace before action after event _ hallowed hstep ih =>
      obtain ⟨observations, rfl, hrun⟩ := ih
      have hobserved : (observed program).step before action = some (after,
          some (event, before.inside program action.party)) :=
        Option.map_eq_some_iff.2 ⟨_, hstep, rfl⟩
      refine ⟨_, ?_, hrun.next hallowed hobserved⟩
      cases event <;> simp [eventsOf]

/-- A generation that was taken has returned, or its dispatch is open. -/
theorem returned_or_open {trace : List Event}
    (run : Run (machine program) allowed start trace state)
    {pool generation : ℕ} {call : Call}
    (hcalled : Event.called pool generation call ∈ trace) :
    Event.returned pool generation ∈ trace ∨
      state.openDispatch = some (pool, generation) := by
  induction run with
  | start => simp at hcalled
  | @next trace before action after event _ _ hstep ih =>
      rw [List.mem_append] at hcalled ⊢
      cases step_calls hstep with
      | called hpc hafter =>
          cases hcalled with
          | inl hold =>
              have hnone : before.openDispatch = none := by
                rw [State.openDispatch, hpc]
                rfl
              exact .inl (.inl ((ih hold).resolve_right (by simp [hnone])))
          | inr hnew =>
              obtain ⟨rfl, rfl, rfl⟩ := by simpa using hnew
              right
              rw [State.openDispatch, hafter]
              rfl
      | returned hpc _ hafter =>
          obtain hreturned | hopen := ih (by simpa using hcalled)
          · exact .inl (.inl hreturned)
          · rw [State.openDispatch, hpc] at hopen
            obtain ⟨rfl, rfl⟩ := Prod.mk.inj (Option.some.inj hopen)
            simp
      | within hopen hbounds =>
          have hold : Event.called pool generation call ∈ trace := by
            apply hcalled.resolve_right
            intro hnew
            rw [Option.mem_toList] at hnew
            simp [hnew, Event.bounds] at hbounds
          rw [hopen]
          exact (ih hold).imp_left .inl

/-- A call is dispatched when all earlier ones have returned, with its pool's
next generation. -/
theorem returned_before_call {trace : List Event}
    (run : Run (machine program) allowed start trace state) :
    ∀ earlier event later, trace = earlier ++ event :: later →
      ∀ pool generation call, event = .called pool generation call →
        pool = call.pool ∧ ∀ pool generation call,
          Event.called pool generation call ∈ earlier →
          Event.returned pool generation ∈ earlier := by
  apply run.at_event (fun trace state =>
      Run (machine program) allowed start trace state)
    (fun earlier event => ∀ pool generation call,
      event = .called pool generation call → pool = call.pool ∧
        ∀ pool generation call, Event.called pool generation call ∈ earlier →
          Event.returned pool generation ∈ earlier) fun hrun => hrun
  rintro trace before action after event hrun - hstep pool generation call rfl
  cases step_calls hstep with
  | called hpc _ =>
      refine ⟨rfl, fun pool generation call hcalled => ?_⟩
      apply (returned_or_open hrun hcalled).resolve_right
      rw [State.openDispatch, hpc]
      simp [ProducerPc.active]
  | within _ hbounds => simp [Event.bounds] at hbounds

/-- Only workers of a pool take steps. -/
theorem hasWorker_of_party {action : Action} {pool slot : ℕ} {after : State}
    {event : Option Event}
    (hstep : step program state action = some (after, event))
    (hparty : action.party = some (pool, slot)) :
    program.HasWorker pool slot := by
  cases action <;> simp [Action.party] at hparty
  all_goals
    obtain ⟨rfl, rfl⟩ := hparty
    simp only [step] at hstep
    split_ifs at hstep with hworker
    exact hworker

theorem outside_of_run {trace : List Observation}
    (run : Run (observed program) allowed start trace state)
    {pool slot : ℕ} (hnone : ¬ program.HasWorker pool slot) :
    state.inside program (some (pool, slot)) = none := by
  apply run.invariant fun _ state =>
    state.inside program (some (pool, slot)) = none
  · rfl
  · intro _ before action after event hbefore _ hstep
    obtain ⟨⟨after, shown⟩, hbase, hout⟩ := Option.map_eq_some_iff.1 hstep
    obtain ⟨rfl, rfl⟩ := Prod.mk.inj hout
    rw [(step_moved hbase).others _ ?_, hbefore]
    intro hparty
    exact hnone (hasWorker_of_party hbase hparty.symm)

/-- At the return of a dispatch no worker is in a share. -/
theorem Inv.not_running {ranks : ℕ → Option RankPc} {trace : List Event}
    (hinv : Inv program ranks trace state) {call : Call} {dispatch : Dispatch}
    {next : ℕ} (hpc : state.producer = .join call dispatch next)
    (hnext : call.participants program ≤ next) {pool slot : ℕ}
    (hworker : program.HasWorker pool slot) :
    (state.slots (pool, slot)).worker.inside program pool = none := by
  have hslot := hinv.slots pool slot hworker
  have hclosed : state.producer.turn pool slot = .closed := by
    rw [hpc, ProducerPc.turn]
    split_ifs with hpool
    · obtain rfl : call.pool = pool := Option.some.inj hpool
      exact if_pos (Nat.lt_of_lt_of_le hworker.2.2 hnext)
    · rfl
  unfold Worker.inside
  split
  next mailbox place hbody =>
    have hrunning : (state.slots (pool, slot)).standing = .running place := by
      rw [Slot.standing, hbody]
    have hopened := (hslot.running place hrunning).1
    rw [hclosed] at hopened
    simp at hopened
  next => rfl

end Runs

/-! ## Careful runs -/

section Careful

variable {program : Program} {allowed : State → Action → Prop}
variable {trace : List Observation} {state : State}
variable (hcareful : ∀ {ranks trace state action},
  Inv program ranks trace state → allowed state action →
    Careful program state action)

include hcareful

/-- At a return every block that was begun has ended. -/
theorem closed_at_return
    (run : Run (observed program) allowed start trace state) :
    ∀ earlier observation later, trace = earlier ++ observation :: later →
      ∀ pool generation, observation.1 = some (.returned pool generation) →
        ∀ piece ∈ earlier.filterMap pieces.opens,
          piece ∈ earlier.filterMap pieces.closes := by
  apply run.at_event (fun trace state =>
      Run (observed program) allowed start trace state)
    (fun earlier observation => ∀ pool generation,
      observation.1 = some (.returned pool generation) →
        ∀ piece ∈ earlier.filterMap pieces.opens,
          piece ∈ earlier.filterMap pieces.closes) fun hrun => hrun
  intro trace before action after event hrun _ hstep pool generation hreturn
    piece hopened
  obtain ⟨⟨after, shown⟩, hbase, hout⟩ := Option.map_eq_some_iff.1 hstep
  obtain ⟨rfl, hevent⟩ := Prod.mk.inj hout
  obtain rfl := Option.some.inj hevent
  obtain rfl : shown = some (.returned pool generation) := hreturn
  obtain hclosed | ⟨party, hinside⟩ :=
    closed_or_inside (occupancy program) hrun hopened
  · exact hclosed
  · exfalso
    obtain ⟨ranks, hinv⟩ := inv_of_run hcareful (run_of_observed hrun)
    cases step_calls hbase with
    | returned hpc hnext _ =>
        have hnobody : before.inside program party = none := by
          cases party with
          | none => rw [State.inside, hpc]
          | some key =>
              by_cases hworker : program.HasWorker key.1 key.2
              · exact hinv.not_running hpc hnext hworker
              · exact outside_of_run hrun hworker
        have hsome : before.inside program party = some piece := hinside
        rw [hnobody] at hsome
        simp at hsome
    | within _ hbounds => simp [Event.bounds] at hbounds

/-- A call that is dispatched is on one of the pools and has a range. -/
theorem admissible_of_called {trace : List Event}
    (run : Run (machine program) allowed start trace state)
    {pool generation : ℕ} {call : Call}
    (hcalled : Event.called pool generation call ∈ trace) :
    call.Admissible program := by
  obtain ⟨earlier, later, hsplit⟩ := List.append_of_mem hcalled
  apply run.at_event (fun trace state =>
      Run (machine program) allowed start trace state)
    (fun _ event => ∀ pool generation call,
      event = .called pool generation call → call.Admissible program)
    (fun hrun => hrun) _ _ _ _ hsplit _ _ _ rfl
  rintro trace before action after event hrun - hstep pool generation call rfl
  obtain ⟨ranks, hinv⟩ := inv_of_run hcareful hrun
  have hprepares := hinv.prepares
  cases step_calls hstep with
  | called hpc _ =>
      rw [hpc] at hprepares
      exact hprepares.1
  | within _ hbounds => simp [Event.bounds] at hbounds

end Careful

end Citor.JobCaches
