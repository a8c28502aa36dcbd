import Citor.Chain.BarrierSafety

/-!
# Barrier safety and completion of a chain call

The invariant of a run is read back as what a caller of `parallelChain` sees:
which bodies run and in which order, that the call cannot get stuck, and how
it ends.
-/

namespace Citor.Chain

open Citor.Interleaving
open Citor.DoneSlots
open Citor.SlotRunners

/-! ## Events of one slot -/

section Events

variable {call : Call} {slot : ℕ}

theorem count_bodyStart_stageEvents (stage started : ℕ) :
    (stageEvents call stage slot).count (.bodyStart started slot) =
      if started = stage ∧ call.runsBody started slot = true then 1 else 0 := by
  by_cases hsame : stage = started
  · subst hsame
    by_cases hruns : call.runsBody stage slot = true <;>
      simp [stageEvents, hruns]
  · have hother : started ≠ stage := Ne.symm hsame
    by_cases hruns : call.runsBody stage slot = true <;>
      simp [stageEvents, hruns, hsame, hother]

theorem count_bodyEnd_stageEvents (stage ended : ℕ) :
    (stageEvents call stage slot).count (.bodyEnd ended slot) =
      if ended = stage ∧ call.runsBody ended slot = true then 1 else 0 := by
  by_cases hsame : stage = ended
  · subst hsame
    by_cases hruns : call.runsBody stage slot = true <;>
      simp [stageEvents, hruns]
  · have hother : ended ≠ stage := Ne.symm hsame
    by_cases hruns : call.runsBody stage slot = true <;>
      simp [stageEvents, hruns, hsame, hother]

theorem count_bodyStart_passedEvents (passed started : ℕ) :
    (passedEvents call slot passed).count (.bodyStart started slot) =
      if started < passed ∧ call.runsBody started slot = true then 1 else 0 := by
  induction passed with
  | zero => simp [passedEvents]
  | succ passed ih =>
      rw [passedEvents, List.count_append, ih, count_bodyStart_stageEvents]
      grind

theorem count_bodyEnd_passedEvents (passed ended : ℕ) :
    (passedEvents call slot passed).count (.bodyEnd ended slot) =
      if ended < passed ∧ call.runsBody ended slot = true then 1 else 0 := by
  induction passed with
  | zero => simp [passedEvents]
  | succ passed ih =>
      rw [passedEvents, List.count_append, ih, count_bodyEnd_stageEvents]
      grind

theorem bodyStart_mem_passedEvents {passed started : ℕ} :
    .bodyStart started slot ∈ passedEvents call slot passed ↔
      started < passed ∧ call.runsBody started slot = true := by
  rw [← List.count_pos_iff, count_bodyStart_passedEvents]
  grind

theorem bodyEnd_mem_passedEvents {passed ended : ℕ} :
    .bodyEnd ended slot ∈ passedEvents call slot passed ↔
      ended < passed ∧ call.runsBody ended slot = true := by
  rw [← List.count_pos_iff, count_bodyEnd_passedEvents]
  grind

theorem bodyThrow_notMem_passedEvents (passed stage : ℕ) :
    .bodyThrow stage slot ∉ passedEvents call slot passed := by
  induction passed with
  | zero => simp [passedEvents]
  | succ passed ih =>
      rw [passedEvents, List.mem_append, not_or]
      refine ⟨ih, ?_⟩
      unfold stageEvents
      split <;> simp

theorem captured_notMem_passedEvents (passed : ℕ) (failure : Failure) :
    .captured failure ∉ passedEvents call slot passed := by
  induction passed with
  | zero => simp [passedEvents]
  | succ passed ih =>
      rw [passedEvents, List.mem_append, not_or]
      refine ⟨ih, ?_⟩
      unfold stageEvents
      split <;> simp

variable {trace : List Event} {state : State}

/-- An event of a slot is found among the events it emitted. -/
theorem SlotInv.mem_iff (hinv : SlotInv call trace state slot) :
    ∃ current, CurrentEvents call slot (state.pc slot) current ∧
      ∀ event : Event, event.slot = slot → (event ∈ trace ↔
        event ∈ passedEvents call slot (state.pc slot).passed ++ current) := by
  obtain ⟨current, hcurrent, hfilter⟩ := hinv.history
  refine ⟨current, hcurrent, fun event hevent => ?_⟩
  rw [← hfilter, List.mem_filter]
  simp [hevent]

/-- A stage the slot is past has run its body to the end. -/
theorem SlotInv.bodyEnd_mem (hinv : SlotInv call trace state slot)
    {stage : ℕ} (hpassed : stage < (state.pc slot).passed)
    (hruns : call.runsBody stage slot = true) :
    .bodyEnd stage slot ∈ trace := by
  obtain ⟨current, -, hmem⟩ := hinv.mem_iff
  refine (hmem _ rfl).mpr (List.mem_append_left _ ?_)
  exact bodyEnd_mem_passedEvents.mpr ⟨hpassed, hruns⟩

/-- The events of the current stage start at most that stage. -/
theorem CurrentEvents.count_bodyStart_le {pc : Pc} {current : List Event}
    (hcurrent : CurrentEvents call slot pc current) (stage : ℕ) :
    current.count (.bodyStart stage slot) ≤ if stage = pc.passed then 1 else 0 := by
  cases pc with
  | stampStage own =>
      simp only [CurrentEvents] at hcurrent
      rw [hcurrent, count_bodyStart_stageEvents]
      grind [Pc.passed]
  | inBody own | capture own =>
      simp only [CurrentEvents] at hcurrent
      by_cases hsame : own = stage
      · simp [hcurrent, hsame, Pc.passed]
      · simp [hcurrent, hsame, Pc.passed]
  | storeCancelled own | stampFinal own | left own =>
      simp only [CurrentEvents] at hcurrent
      rcases hcurrent with rfl | rfl
      · simp
      · by_cases hsame : own = stage
        · simp [hsame, Pc.passed]
        · simp [hsame]
  | _ =>
      simp only [CurrentEvents] at hcurrent
      simp [hcurrent]

theorem SlotInv.count_bodyStart_le_one (hinv : SlotInv call trace state slot)
    (stage : ℕ) : trace.count (.bodyStart stage slot) ≤ 1 := by
  obtain ⟨current, hcurrent, hfilter⟩ := hinv.history
  have hcount : trace.count (.bodyStart stage slot) =
      (passedEvents call slot (state.pc slot).passed).count
        (.bodyStart stage slot) + current.count (.bodyStart stage slot) := by
    rw [← List.count_append, ← hfilter, List.count_filter]
    simp [Event.slot]
  have hle := hcurrent.count_bodyStart_le stage
  rw [hcount, count_bodyStart_passedEvents]
  grind

/-- In front of a body the slot has started earlier stages only. -/
theorem SlotInv.lt_of_bodyStart_mem (hinv : SlotInv call trace state slot)
    {stage started : ℕ} (hpc : state.pc slot = .pollToken stage)
    (hstarted : .bodyStart started slot ∈ trace) : started < stage := by
  obtain ⟨current, hcurrent, hmem⟩ := hinv.mem_iff
  simp only [hpc, CurrentEvents] at hcurrent
  have hpassed := (hmem _ rfl).mp hstarted
  simp only [hcurrent, List.append_nil, hpc, Pc.passed] at hpassed
  exact (bodyStart_mem_passedEvents.mp hpassed).1

/-- A slot that has returned left its failure behind. -/
theorem SlotInv.captured_mem (hinv : SlotInv call trace state slot)
    {stage : ℕ} (hleft : (state.pc slot).hasLeft = true)
    (hthrown : .bodyThrow stage slot ∈ trace) :
    ∃ failure, .captured failure ∈ trace := by
  obtain ⟨current, hcurrent, hmem⟩ := hinv.mem_iff
  cases hpc : state.pc slot with
  | left passed =>
      simp only [hpc, CurrentEvents] at hcurrent
      have hfound := (hmem _ rfl).mp hthrown
      simp only [List.mem_append, bodyThrow_notMem_passedEvents, false_or]
        at hfound
      rcases hcurrent with rfl | rfl
      · simp at hfound
      · refine ⟨⟨passed, slot⟩, (hmem _ rfl).mpr ?_⟩
        simp
  | _ => simp [hpc, Pc.hasLeft] at hleft

/-- What was captured had been thrown. -/
theorem SlotInv.bodyThrow_mem {failure : Failure}
    (hinv : SlotInv call trace state failure.slot)
    (hcaptured : .captured failure ∈ trace) :
    .bodyThrow failure.stage failure.slot ∈ trace := by
  obtain ⟨current, hcurrent, hmem⟩ := hinv.mem_iff
  have hfound := (hmem _ rfl).mp hcaptured
  simp only [List.mem_append, captured_notMem_passedEvents, false_or] at hfound
  refine (hmem _ rfl).mpr (List.mem_append_right _ ?_)
  cases hpc : state.pc failure.slot with
  | storeCancelled stage | stampFinal stage | left stage =>
      simp only [hpc, CurrentEvents] at hcurrent
      rcases hcurrent with rfl | rfl
      · simp at hfound
      · simp only [List.mem_cons, reduceCtorEq, Event.captured.injEq,
          List.not_mem_nil, or_false, false_or] at hfound
        have hstage : failure.stage = stage := congrArg Failure.stage hfound
        simp [hstage]
  | stampStage stage =>
      simp only [hpc, CurrentEvents, stageEvents] at hcurrent
      split at hcurrent <;> simp [hcurrent] at hfound
  | _ =>
      simp only [hpc, CurrentEvents] at hcurrent
      simp [hcurrent] at hfound

end Events

/-! ## Progress -/

section Progress

variable {call : Call} {trace : List Event} {state : State} {slot : ℕ}

/-- Steps of a slot that are not waiting for a stamp are always enabled. -/
theorem stepSlot_isSome (hrunning : (state.pc slot).hasLeft = false)
    (hscan : ∀ stage step, state.pc slot = .scanPeers stage step →
      call.epochs.epochBase + stage ≤
        state.done (scanPeer call.participants slot step))
    (hwait : ∀ stage, state.pc slot = .waitProducer stage →
      call.epochs.epochBase + (stage + 1) ≤ state.done 0) :
    (stepSlot call state slot).isSome = true := by
  cases hpc : state.pc slot with
  | scanPeers stage step =>
      have := hscan stage step hpc
      simp only [stepSlot, hpc]
      repeat' split
      all_goals first | rfl | omega
  | waitProducer stage =>
      have := hwait stage hpc
      simp only [stepSlot, hpc]
      split
      · omega
      · rfl
  | left passed => simp [hpc, Pc.hasLeft] at hrunning
  | _ =>
      simp only [stepSlot, hpc]
      repeat' split
      all_goals rfl

/-- A stamp that is missing belongs to a slot that still has to write it. -/
theorem SlotInv.behind (hinv : SlotInv call trace state slot) {stage : ℕ}
    (hneeded : call.stampNeeded stage slot = true) (hstage : stage < call.nStages)
    (hmissing : state.done slot < call.epochs.epochBase + (stage + 1)) :
    (state.pc slot).hasLeft = false ∧ (state.pc slot).passed ≤ stage := by
  have hpassed : (state.pc slot).passed ≤ stage := by
    by_contra hbeyond
    have := hinv.le_stamp stage (by omega) hneeded
    omega
  refine ⟨?_, hpassed⟩
  have hok := hinv.pcOk
  cases hpc : state.pc slot with
  | left passed =>
      simp only [hpc, Pc.passed] at hpassed
      rw [hpc] at hok
      rcases hok with hall | ⟨-, -, hfinal⟩ <;> omega
  | _ => rfl

theorem stampNeeded_of_rendezvous {stage : ℕ}
    (hrendezvous : (call.barrier stage).isRendezvous = true) :
    call.stampNeeded stage slot = true := by
  cases hbarrier : call.barrier stage <;>
    simp_all [Call.stampNeeded, BarrierKind.isRendezvous]

/-- As long as some slot has not returned, some slot can take a step. -/
theorem Inv.exists_slot_step (hinv : Inv call trace state)
    (hslot : slot < call.participants)
    (hrunning : (state.pc slot).hasLeft = false) :
    ∃ mover < call.participants, (stepSlot call state mover).isSome = true := by
  -- follow the missing stamps to ever earlier stages
  induction hpassed : (state.pc slot).passed using Nat.strong_induction_on
    generalizing slot with
  | h passed ih =>
      by_cases hmoves : (stepSlot call state slot).isSome = true
      · exact ⟨slot, hslot, hmoves⟩
      have hok := (hinv.slots slot hslot).pcOk
      have htwo := call.two_le
      have hblocked : (∃ stage step, state.pc slot = .scanPeers stage step ∧
            state.done (scanPeer call.participants slot step) <
              call.epochs.epochBase + stage) ∨
          ∃ stage, state.pc slot = .waitProducer stage ∧
            state.done 0 < call.epochs.epochBase + (stage + 1) := by
        by_contra hnone
        push Not at hnone
        exact hmoves (stepSlot_isSome hrunning hnone.1 hnone.2)
      rcases hblocked with ⟨stage, step, hpc, hmissing⟩ | ⟨stage, hpc, hmissing⟩
      · rw [hpc] at hok hpassed
        obtain ⟨hstage, hone, hstep, hrendezvous, -⟩ := hok
        simp only [Pc.passed] at hpassed
        cases stage with
        | zero => simp [Call.barrierBefore, BarrierKind.isRendezvous] at hrendezvous
        | succ stage =>
            have hpeer := scanPeer_lt hslot hstep
            obtain ⟨hpeerRuns, hbehind⟩ :=
              (hinv.slots _ hpeer).behind (stampNeeded_of_rendezvous hrendezvous)
                (by omega) hmissing
            exact ih _ (by omega) hpeer hpeerRuns rfl
      · rw [hpc] at hok hpassed
        obtain ⟨hstage, hserial, hne⟩ := hok
        simp only [Pc.passed] at hpassed
        have hneeded : call.stampNeeded stage 0 = true := by
          simp [Call.stampNeeded, hserial]
        obtain ⟨hproducerRuns, hbehind⟩ :=
          (hinv.slots 0 (by omega)).behind hneeded hstage hmissing
        rcases Nat.lt_or_eq_of_le hbehind with hless | hsame
        · exact ih _ (by omega) (by omega) hproducerRuns rfl
        · -- slot 0 never waits in front of the serial stage
          refine ⟨0, by omega, stepSlot_isSome hproducerRuns ?_ ?_⟩
          · intro other step hzero
            have hzeroOk := (hinv.slots 0 (by omega)).pcOk
            rw [hzero] at hzeroOk hsame
            simp only [Pc.passed] at hsame
            have hrendezvous := hzeroOk.2.2.2.1
            rw [hsame, hserial] at hrendezvous
            simp [BarrierKind.isRendezvous] at hrendezvous
          · intro other hzero
            have hzeroOk := (hinv.slots 0 (by omega)).pcOk
            rw [hzero] at hzeroOk
            exact absurd rfl hzeroOk.2.2

/-- Nobody is stuck: until the call has ended, a slot or the join can take a
step. -/
theorem Inv.exists_step (hinv : Inv call trace state)
    (hrunning : state.outcome = none) :
    ∃ action after event, action ≠ .requestStop ∧
      (chain call).step state action = some (after, event) := by
  by_cases hall : state.allLeft Pc.hasLeft call.participants = true
  · refine ⟨.join, { state with
        outcome := some (rethrowIfCaptured state.firstException) }, none,
      by simp, ?_⟩
    simp only [chain, hrunning, hall, and_self, if_true]
  · simp only [State.allLeft_iff, not_forall, Bool.not_eq_true] at hall
    obtain ⟨slot, hslot, hleft⟩ := hall
    obtain ⟨mover, hmover, hsome⟩ := hinv.exists_slot_step hslot hleft
    obtain ⟨⟨after, event⟩, hstep⟩ := Option.isSome_iff_exists.mp hsome
    exact ⟨.slot mover, after, event, by simp, by simpa [chain, hmover] using hstep⟩

/-! ## Steps that are left -/

/-- Atomic operations left in front of a program counter, at most. -/
def Pc.remaining (call : Call) : Pc → ℕ
  | .scanPeers stage step =>
      (call.nStages - stage) * (call.participants + 8) + 7 +
        (call.participants - step)
  | .waitProducer stage => (call.nStages - stage) * (call.participants + 8) + 7
  | .loadCancelled stage => (call.nStages - stage) * (call.participants + 8) + 6
  | .pollToken stage => (call.nStages - stage) * (call.participants + 8) + 5
  | .inBody stage => (call.nStages - stage) * (call.participants + 8) + 4
  | .repollToken stage | .capture stage =>
      (call.nStages - stage) * (call.participants + 8) + 3
  | .storeCancelled stage => (call.nStages - stage) * (call.participants + 8) + 2
  | .stampFinal stage | .stampStage stage =>
      (call.nStages - stage) * (call.participants + 8) + 1
  | .left _ => 0

/-- Atomic operations a call has left, at most; the join is one. -/
def State.remaining (call : Call) (state : State) : ℕ :=
  (if state.outcome = none then 1 else 0) +
    ∑ slot ∈ Finset.range call.participants, (state.pc slot).remaining call

theorem remaining_enterStage_lt (call : Call) (stage slot : ℕ) :
    (enterStage call (stage + 1) slot).remaining call <
      (call.nStages - stage) * (call.participants + 8) + 1 := by
  have hnext : stage + 1 < call.nStages →
      (call.nStages - stage) * (call.participants + 8) =
        (call.nStages - (stage + 1)) * (call.participants + 8) +
          (call.participants + 8) := by
    intro hless
    obtain ⟨rest, hrest⟩ := Nat.exists_eq_add_of_lt hless
    have hbefore : call.nStages - stage = rest + 2 := by omega
    have hafter : call.nStages - (stage + 1) = rest + 1 := by omega
    rw [hbefore, hafter]
    ring
  have := call.two_le
  obtain ⟨hlt, -, h⟩ | ⟨hlt, -, -, h⟩ | ⟨hlt, -, -, h⟩ | ⟨-, h⟩ :=
    enterStage_cases call (stage + 1) slot
  · simp only [h, Pc.remaining, hnext hlt]
    omega
  · simp only [h, Pc.remaining, hnext hlt]
    omega
  · simp only [h, Pc.remaining, hnext hlt]
    omega
  · simp [h, Pc.remaining]

theorem remaining_afterBody_lt (call : Call) (stage slot : ℕ) :
    (afterBody call stage slot).remaining call <
      (call.nStages - stage) * (call.participants + 8) + 2 := by
  unfold afterBody
  split
  · simp [Pc.remaining]
  · have := remaining_enterStage_lt call stage slot
    omega

/-- A step of a slot leaves it with less to do. -/
theorem stepSlot_remaining {before after : State} {event : Option Event}
    (hstep : stepSlot call before slot = some (after, event)) :
    (after.pc slot).remaining call < (before.pc slot).remaining call := by
  have hbody := fun stage => remaining_afterBody_lt call stage slot
  have henter := fun stage => remaining_enterStage_lt call stage slot
  cases hpc : before.pc slot <;> simp only [stepSlot, hpc] at hstep
  all_goals
    repeat' split at hstep
  all_goals
    first
      | (simp only [reduceCtorEq] at hstep)
      | (simp only [Option.some.injEq, Prod.mk.injEq] at hstep
         obtain ⟨rfl, rfl⟩ := hstep
         simp only [State.setPc, State.stamp, Function.update_self]
         first
           | (simp only [Pc.remaining]; omega)
           | exact (hbody _).trans_le (by simp [Pc.remaining])
           | exact (henter _).trans_le (by simp [Pc.remaining]))

/-- Every step but a stop request leaves the call with less to do. -/
theorem remaining_lt {before after : State} {action : Action}
    {event : Option Event} (haction : action ≠ .requestStop)
    (hstep : (chain call).step before action = some (after, event)) :
    after.remaining call < before.remaining call := by
  cases action with
  | slot slot =>
      simp only [chain] at hstep
      split at hstep
      next hslot =>
        have hframe := stepSlot_frame hstep
        have hsum : ∑ other ∈ Finset.range call.participants,
              (after.pc other).remaining call <
            ∑ other ∈ Finset.range call.participants,
              (before.pc other).remaining call := by
          refine Finset.sum_lt_sum (fun other _ => ?_)
            ⟨slot, Finset.mem_range.mpr hslot, stepSlot_remaining hstep⟩
          by_cases hsame : other = slot
          · rw [hsame]
            exact (stepSlot_remaining hstep).le
          · rw [hframe.pc other hsame]
        simp only [State.remaining, hframe.outcome]
        omega
      next => simp at hstep
  | join =>
      simp only [chain] at hstep
      split at hstep
      next hready =>
        obtain ⟨rfl, rfl⟩ := by simpa using hstep
        simp [State.remaining, hready.1]
      next => simp at hstep
  | requestStop => exact absurd rfl haction

end Progress

/-! ## What a caller sees -/

/-- Barrier safety of one run of a chain call, and its completion. -/
structure BarrierSafe (call : Call) (trace : List Event) (state : State) :
    Prop where
  /-- Behind a rendezvous every slot has finished the stage in front of it. -/
  rendezvous : ∀ earlier later stage slot,
    trace = earlier ++ .bodyStart (stage + 1) slot :: later →
    (call.barrier stage).isRendezvous = true →
    ∀ peer < call.participants, call.runsBody stage peer = true →
      .bodyEnd stage peer ∈ earlier
  /-- A serial stage runs on slot 0 alone. -/
  serialOnly : ∀ stage slot, .bodyStart (stage + 1) slot ∈ trace →
    call.barrier stage = .producerSerial → slot = 0
  /-- Nobody overtakes slot 0 at a serial stage. -/
  serialFirst : ∀ earlier later stage laterStage slot,
    trace = earlier ++ .bodyStart laterStage slot :: later →
    call.barrier stage = .producerSerial → slot ≠ 0 → stage + 1 < laterStage →
      .bodyEnd (stage + 1) 0 ∈ earlier
  once : ∀ stage slot, trace.count (.bodyStart stage slot) ≤ 1
  ordered : ∀ earlier later stage earlierStage slot,
    trace = earlier ++ .bodyStart stage slot :: later →
    .bodyStart earlierStage slot ∈ earlier → earlierStage < stage
  /-- An undisturbed call runs every required body exactly once. -/
  complete : state.outcome ≠ none → state.stopRequested = false →
    (∀ stage slot, .bodyThrow stage slot ∉ trace) →
    ∀ stage < call.nStages, ∀ slot < call.participants,
      trace.count (.bodyStart stage slot) =
          (if call.runsBody stage slot then 1 else 0) ∧
        trace.count (.bodyEnd stage slot) =
          (if call.runsBody stage slot then 1 else 0)
  /-- Until the call has ended some slot or the join can take a step. -/
  enabled : state.outcome = none → ∃ action after event,
    action ≠ .requestStop ∧ (chain call).step state action = some (after, event)
  /-- No schedule runs for ever: every such step uses up one that was left. -/
  shorter : ∀ action after event, action ≠ .requestStop →
    (chain call).step state action = some (after, event) →
    after.remaining call < state.remaining call
  /-- The call can be run to its end, whatever happened so far. -/
  completes : ∃ rest final,
    Run (chain call) (fun _ action => action ≠ .requestStop) state rest final ∧
      final.outcome ≠ none
  /-- It rethrows the first captured failure, or returns if no body threw. -/
  outcome : ∀ outcome, state.outcome = some outcome →
    outcome = rethrowIfCaptured (trace.filterMap Event.failure).head? ∧
      (outcome = .returned ↔ ∀ stage slot, .bodyThrow stage slot ∉ trace)

section Caller

variable {call : Call} {trace : List Event} {state : State}

/-- A body starts at a token poll only. -/
theorem step_bodyStart {before after : State} {action : Action}
    {stage slot : ℕ}
    (hstep : (chain call).step before action =
      some (after, some (.bodyStart stage slot))) :
    slot < call.participants ∧ before.pc slot = .pollToken stage ∧
      call.runsBody stage slot = true := by
  cases action with
  | slot mover =>
      simp only [chain] at hstep
      split at hstep
      next hmover =>
        cases hpc : before.pc mover <;> simp only [stepSlot, hpc] at hstep
        all_goals
          repeat' split at hstep
        all_goals
          simp only [Option.some.injEq, Prod.mk.injEq, reduceCtorEq, and_false,
            Event.bodyStart.injEq] at hstep
        next hruns =>
          obtain ⟨-, rfl, rfl⟩ := hstep
          exact ⟨hmover, hpc, hruns⟩
      next => simp at hstep
  | join =>
      simp only [chain] at hstep
      split at hstep <;> simp at hstep
  | requestStop => simp [chain] at hstep

/-- What holds in front of a body, whatever the trace, holds in front of every
body of a run. -/
theorem bodyStart_rule
    (property : List Event → ℕ → ℕ → Prop)
    (hproperty : ∀ {earlier before stage slot}, Inv call earlier before →
      slot < call.participants → before.pc slot = .pollToken stage →
      call.runsBody stage slot = true → property earlier stage slot)
    (run : Reaches (chain call) (start call) trace state)
    {earlier later : List Event} {stage slot : ℕ}
    (htrace : trace = earlier ++ .bodyStart stage slot :: later) :
    property earlier stage slot := by
  refine run.at_event (Inv call)
    (fun earlier event => ∀ stage slot, event = .bodyStart stage slot →
      property earlier stage slot)
    inv_run ?_ earlier _ later htrace stage slot rfl
  intro earlier before action after event hinv _ hstep stage slot hevent
  subst hevent
  obtain ⟨hslot, hpc, hruns⟩ := step_bodyStart hstep
  exact hproperty hinv hslot hpc hruns

theorem rendezvous_of_run (run : Reaches (chain call) (start call) trace state)
    {earlier later : List Event} {stage slot : ℕ}
    (htrace : trace = earlier ++ .bodyStart (stage + 1) slot :: later)
    (hrendezvous : (call.barrier stage).isRendezvous = true)
    {peer : ℕ} (hpeer : peer < call.participants)
    (hruns : call.runsBody stage peer = true) :
    .bodyEnd stage peer ∈ earlier := by
  refine bodyStart_rule
    (fun earlier started _ => started = stage + 1 →
      .bodyEnd stage peer ∈ earlier) ?_ run htrace rfl
  intro earlier before started slot hinv hslot hpc _ hstarted
  subst hstarted
  have hclear := (hinv.slots slot hslot).boundary (stage + 1)
    (by simp [hpc, Pc.cleared])
  have hpassed := hclear.1 hrendezvous peer hpeer
  exact (hinv.slots peer hpeer).bodyEnd_mem hpassed hruns

theorem serialOnly_of_run (run : Reaches (chain call) (start call) trace state)
    {stage slot : ℕ} (hstarted : .bodyStart (stage + 1) slot ∈ trace)
    (hserial : call.barrier stage = .producerSerial) : slot = 0 := by
  obtain ⟨earlier, later, htrace⟩ := List.append_of_mem hstarted
  have hruns := bodyStart_rule
    (fun _ started slot => call.runsBody started slot = true)
    (fun _ _ _ hruns => hruns) run htrace
  simpa [Call.runsBody, Call.barrierBefore, hserial] using hruns

theorem serialFirst_of_run (run : Reaches (chain call) (start call) trace state)
    {earlier later : List Event} {stage laterStage slot : ℕ}
    (htrace : trace = earlier ++ .bodyStart laterStage slot :: later)
    (hserial : call.barrier stage = .producerSerial) (hslot : slot ≠ 0)
    (hlater : stage + 1 < laterStage) :
    .bodyEnd (stage + 1) 0 ∈ earlier := by
  refine bodyStart_rule
    (fun earlier started slot => slot ≠ 0 → stage + 1 < started →
      .bodyEnd (stage + 1) 0 ∈ earlier) ?_ run htrace hslot hlater
  intro earlier before started slot hinv hbound hpc _ hne hless
  have htwo := call.two_le
  have hclear := (hinv.slots slot hbound).boundary (stage + 1)
    (by simp only [hpc, Pc.cleared]; omega)
  have hpassed := hclear.2 hserial hne
  exact (hinv.slots 0 (by omega)).bodyEnd_mem hpassed (by simp [Call.runsBody])

theorem ordered_of_run (run : Reaches (chain call) (start call) trace state)
    {earlier later : List Event} {stage earlierStage slot : ℕ}
    (htrace : trace = earlier ++ .bodyStart stage slot :: later)
    (hstarted : .bodyStart earlierStage slot ∈ earlier) :
    earlierStage < stage := by
  refine bodyStart_rule
    (fun earlier started slot => .bodyStart earlierStage slot ∈ earlier →
      earlierStage < started) ?_ run htrace hstarted
  intro earlier before started slot hinv hslot hpc _ hmem
  exact (hinv.slots slot hslot).lt_of_bodyStart_mem hpc hmem

/-- An ended call has captured a failure exactly if some body threw. -/
theorem Inv.firstException_eq_none_iff (hinv : Inv call trace state)
    (hall : state.allLeft Pc.hasLeft call.participants = true) :
    state.firstException = none ↔
      ∀ stage slot, .bodyThrow stage slot ∉ trace := by
  have hleft := state.allLeft_iff.1 hall
  rw [hinv.captured, List.head?_eq_none_iff, List.filterMap_eq_nil_iff]
  constructor
  · intro hnone stage slot hthrown
    have hslot := hinv.bounded _ hthrown
    obtain ⟨failure, hcaptured⟩ :=
      (hinv.slots slot hslot).captured_mem (hleft slot hslot) hthrown
    simpa [Event.failure] using hnone _ hcaptured
  · intro hnever event hevent
    cases event with
    | captured failure =>
        have hslot := hinv.bounded _ hevent
        exact absurd ((hinv.slots _ hslot).bodyThrow_mem hevent) (hnever _ _)
    | _ => rfl

/-- An ended, undisturbed call has got every slot through every stage. -/
theorem Inv.count_of_undisturbed (hinv : Inv call trace state)
    (hall : state.allLeft Pc.hasLeft call.participants = true)
    (hquiet : state.stopRequested = false)
    (hnever : ∀ stage slot, .bodyThrow stage slot ∉ trace)
    {slot : ℕ} (hslot : slot < call.participants) :
    trace.filter (fun event => event.slot = slot) =
      passedEvents call slot call.nStages := by
  have hleft := state.allLeft_iff.1 hall slot hslot
  have hclear : state.cancelled = false := by
    by_contra hset
    rcases hinv.disturbed (by simpa using hset) with hstop | hfirst
    · simp [hquiet] at hstop
    · exact hfirst ((hinv.firstException_eq_none_iff hall).mpr hnever)
  have hslotInv := hinv.slots slot hslot
  obtain ⟨current, hcurrent, hfilter⟩ := hslotInv.history
  have hok := hslotInv.pcOk
  cases hpc : state.pc slot with
  | left passed =>
      rw [hpc] at hok
      obtain rfl : passed = call.nStages := by
        simpa [PcOk, hclear] using hok
      simp only [hpc, CurrentEvents] at hcurrent
      rcases hcurrent with rfl | rfl
      · simpa [hpc, Pc.passed] using hfilter
      · refine absurd ?_ (hnever call.nStages slot)
        have hmem : .bodyThrow call.nStages slot ∈
            trace.filter (fun event => event.slot = slot) := by
          rw [hfilter]
          simp
        exact (List.mem_filter.mp hmem).1
  | _ => simp [hpc, Pc.hasLeft] at hleft

/-- For every list of stages, set of throwing bodies, time of a stop request
and interleaving, a chain call is barrier safe and comes to its end. -/
theorem barrierSafe_of_run (call : Call) {trace : List Event} {state : State}
    (run : Reaches (chain call) (start call) trace state) :
    BarrierSafe call trace state where
  rendezvous _ _ _ _ htrace hrendezvous _ hpeer hruns :=
    rendezvous_of_run run htrace hrendezvous hpeer hruns
  serialOnly _ _ hstarted hserial := serialOnly_of_run run hstarted hserial
  serialFirst _ _ _ _ _ htrace hserial hslot hlater :=
    serialFirst_of_run run htrace hserial hslot hlater
  once stage slot := by
    have hinv := inv_run run
    by_cases hmem : .bodyStart stage slot ∈ trace
    · exact (hinv.slots slot (hinv.bounded _ hmem)).count_bodyStart_le_one stage
    · simp [List.count_eq_zero_of_not_mem hmem]
  ordered _ _ _ _ _ htrace hstarted := ordered_of_run run htrace hstarted
  complete := by
    intro hended hquiet hnever stage hstage slot hslot
    have hinv := inv_run run
    obtain ⟨outcome, houtcome⟩ := Option.ne_none_iff_exists'.mp hended
    have hfilter := hinv.count_of_undisturbed (hinv.outcome _ houtcome).1
      hquiet hnever hslot
    have hcount : ∀ event : Event, event.slot = slot →
        trace.count event = (passedEvents call slot call.nStages).count event := by
      intro event hevent
      rw [← hfilter, List.count_filter (by simpa using hevent)]
    rw [hcount _ rfl, hcount _ rfl, count_bodyStart_passedEvents,
      count_bodyEnd_passedEvents]
    simp [hstage]
  enabled hrunning := (inv_run run).exists_step hrunning
  shorter _ _ _ haction hstep := remaining_lt haction hstep
  completes := by
    refine exists_completion (State.remaining call)
      (fun state => ∃ trace, Inv call trace state) ?_ ?_ ?_
      ⟨trace, inv_run run⟩
    · rintro state ⟨trace, hinv⟩ hrunning
      exact hinv.exists_step (by simpa using hrunning)
    · rintro state action after event ⟨trace, hinv⟩ _ hstep
      exact ⟨_, inv_step hinv hstep⟩
    · rintro state action after event _ haction hstep
      exact remaining_lt haction hstep
  outcome := by
    intro outcome houtcome
    have hinv := inv_run run
    obtain ⟨hall, hvalue⟩ := hinv.outcome outcome houtcome
    refine ⟨by rw [hvalue, hinv.captured], ?_⟩
    rw [← hinv.firstException_eq_none_iff hall, hvalue]
    cases state.firstException <;> simp [rethrowIfCaptured]

end Caller

/-- Two slots, a rendezvous and a serial stage. -/
def twoSlotCall : Call where
  participants := 2
  two_le := le_rfl
  barriers := [.global, .producerSerial, .none]
  throws := fun _ _ => false
  epochs := .fresh

theorem barrierSafe_twoSlotCall :
    ∃ trace state, state.outcome = some .returned ∧
      BarrierSafe twoSlotCall trace state := by
  obtain ⟨trace, state, run, hended⟩ :=
    reaches_of_check (chain twoSlotCall) (start twoSlotCall)
      (List.flatten
        [List.replicate 4 (.slot 0), List.replicate 4 (.slot 1),
          List.replicate 5 (.slot 0), List.replicate 5 (.slot 1),
          List.replicate 4 (.slot 0), List.replicate 3 (.slot 1), [.join]])
      (fun _ state => state.outcome = some .returned) (by decide)
  exact ⟨trace, state, by simpa using hended, barrierSafe_of_run _ run⟩

/-! ## The stamps a call leaves behind -/

theorem passed_le_nStages {call : Call} {trace : List Event} {state : State}
    {slot : ℕ} (hinv : SlotInv call trace state slot) :
    (state.pc slot).passed ≤ call.nStages := by
  have hok := hinv.pcOk
  cases hpc : state.pc slot with
  | waitProducer stage | scanPeers stage step | loadCancelled stage
  | repollToken stage | storeCancelled stage | stampFinal stage
  | inBody stage | capture stage | stampStage stage =>
      rw [hpc] at hok
      exact hok.1.le
  | pollToken stage =>
      rw [hpc] at hok
      exact Nat.le_of_lt hok
  | left passed =>
      rw [hpc] at hok
      rcases hok with hall | ⟨hless, -⟩
      · exact hall.le
      · exact hless.le

/-- Every stamp stays inside the interval the call reserved. -/
theorem done_le_of_run {call : Call} {trace : List Event} {state : State}
    (run : Reaches (chain call) (start call) trace state) (slot : ℕ) :
    state.done slot ≤ call.epochs.epochBase + (call.nStages + 1) := by
  by_cases hslot : slot < call.participants
  · have hinv := (inv_run run).slots slot hslot
    have := passed_le_nStages hinv
    rcases hinv.stamp_le with hstamp | ⟨-, -, hstamp⟩ <;> omega
  · have hkept : state.done slot = call.epochs.done slot := by
      refine run.invariant (fun _ state => state.done slot = call.epochs.done slot)
        rfl ?_
      intro trace before action after event hold _ hstep
      cases action with
      | slot mover =>
          simp only [chain] at hstep
          split at hstep
          next hmover =>
            rw [(stepSlot_frame hstep).done slot (by omega), hold]
          next => simp at hstep
      | join =>
          simp only [chain] at hstep
          split at hstep
          · obtain ⟨rfl, rfl⟩ := by simpa using hstep
            exact hold
          · simp at hstep
      | requestStop =>
          obtain ⟨rfl, rfl⟩ := by simpa [chain] using hstep
          exact hold
    have := call.epochs.done_le slot
    omega

/-- The block the next call finds. -/
def nextEpochs {call : Call} {trace : List Event} {state : State}
    (run : Reaches (chain call) (start call) trace state) : ChainEpochs :=
  call.epochs.advance (call.nStages + 1) state.done (done_le_of_run run)

end Citor.Chain
