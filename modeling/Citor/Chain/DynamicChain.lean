import Citor.Chain.DynamicSteps

/-!
# Block coverage and completion of a dynamic chain call

The invariant read back as what a caller sees, and the run in which a stage
counter wraps and hands out block 0 a second time.
-/

namespace Citor.DynamicChain

open Citor.Interleaving
open Citor.DoneSlots
open Citor.SlotRunners
open Citor.MachineWord

/-! ## Progress -/

section Progress

variable {call : Call} {trace : List Event} {state : State} {slot : ℕ}

/-- Steps of a slot that is not waiting for a stamp are always enabled. -/
theorem stepSlot_isSome (hrunning : (state.pc slot).hasLeft = false)
    (hscan : ∀ stage step, state.pc slot = .scanPeers stage step →
      call.epochs.epochBase + stage ≤
        state.done (scanPeer call.participants slot step)) :
    (stepSlot call state slot).isSome = true := by
  cases hpc : state.pc slot with
  | scanPeers stage step =>
      have := hscan stage step hpc
      simp only [stepSlot, hpc]
      repeat' split
      all_goals first | rfl | omega
  | left passed => simp [hpc, Pc.hasLeft] at hrunning
  | _ =>
      simp only [stepSlot, hpc]
      repeat' split
      all_goals rfl

/-- A stamp that is missing belongs to a slot that still has to write it. -/
theorem SlotInv.behind (hinv : SlotInv call trace state slot) {stage : ℕ}
    (hstage : stage < call.nStages)
    (hmissing : state.done slot < call.epochs.epochBase + (stage + 1)) :
    (state.pc slot).hasLeft = false ∧ (state.pc slot).stage ≤ stage := by
  have hbehind : (state.pc slot).stage ≤ stage := by
    by_contra hbeyond
    have := hinv.le_stamp stage (by omega)
    omega
  refine ⟨?_, hbehind⟩
  have hok := hinv.pcOk
  cases hpc : state.pc slot with
  | left passed =>
      simp only [hpc, Pc.stage] at hbehind
      rw [hpc] at hok
      rcases hok with hall | ⟨-, -, hfinal⟩ <;> omega
  | _ => rfl

/-- As long as some slot has not returned, some slot can take a step. -/
theorem Inv.exists_slot_step (hinv : Inv call trace state)
    (hslot : slot < call.participants)
    (hrunning : (state.pc slot).hasLeft = false) :
    ∃ mover < call.participants,
      (stepSlot call state mover).isSome = true := by
  -- follow the missing stamps to ever earlier stages
  induction hstage : (state.pc slot).stage using Nat.strong_induction_on
    generalizing slot with
  | h at_ ih =>
      by_cases hmoves : (stepSlot call state slot).isSome = true
      · exact ⟨slot, hslot, hmoves⟩
      have hblocked : ∃ stage step, state.pc slot = .scanPeers stage step ∧
          state.done (scanPeer call.participants slot step) <
            call.epochs.epochBase + stage := by
        by_contra hnone
        push Not at hnone
        exact hmoves (stepSlot_isSome hrunning hnone)
      obtain ⟨stage, step, hpc, hmissing⟩ := hblocked
      have hok := (hinv.slots slot hslot).pcOk
      rw [hpc] at hok hstage
      obtain ⟨hlast, hpos, hone, hstep, -⟩ := hok
      obtain ⟨before, rfl⟩ : ∃ before, stage = before + 1 :=
        ⟨stage - 1, by omega⟩
      have hpeer := scanPeer_lt hslot hstep
      obtain ⟨hpeerRuns, hbehind⟩ :=
        (hinv.slots _ hpeer).behind (by omega) hmissing
      simp only [Pc.stage] at hstage
      exact ih _ (by omega) hpeer hpeerRuns rfl

/-- Nobody is stuck: until the call has ended, a slot or the join can take a
step. -/
theorem Inv.exists_step (hinv : Inv call trace state)
    (hrunning : state.outcome = none) :
    ∃ action after event, action ≠ .requestStop ∧
      (dynamicChain call).step state action = some (after, event) := by
  by_cases hall : state.allLeft Pc.hasLeft call.participants = true
  · refine ⟨.join, { state with
        outcome := some (rethrowIfCaptured state.firstException) }, none,
      by simp, ?_⟩
    simp only [dynamicChain, hrunning, hall, and_self, if_true]
  · simp only [State.allLeft_iff, not_forall, Bool.not_eq_true] at hall
    obtain ⟨slot, hslot, hleft⟩ := hall
    obtain ⟨mover, hmover, hsome⟩ := hinv.exists_slot_step hslot hleft
    obtain ⟨⟨after, event⟩, hstep⟩ := Option.isSome_iff_exists.1 hsome
    exact ⟨.slot mover, after, event, by simp,
      by simpa [dynamicChain, hmover] using hstep⟩

end Progress

/-! ## Steps that are left -/

/-- The atomic operations of one stage but for its claims, at most. -/
def Call.stageSteps (call : Call) : ℕ :=
  call.participants + 12

/-- Atomic operations left in front of a program counter, at most, if its
slot is handed no further block. -/
def Pc.remaining (call : Call) : Pc → ℕ
  | .scanPeers stage step =>
      (call.nStages - stage) * call.stageSteps + 8 +
        (call.participants - step)
  | .loadCancelled stage => (call.nStages - stage) * call.stageSteps + 8
  | .pollToken stage => (call.nStages - stage) * call.stageSteps + 7
  | .inBlock stage _ => (call.nStages - stage) * call.stageSteps + 6
  | .loopHead stage => (call.nStages - stage) * call.stageSteps + 5
  | .claim stage => (call.nStages - stage) * call.stageSteps + 4
  | .repollToken stage | .capture stage _ =>
      (call.nStages - stage) * call.stageSteps + 3
  | .storeCancelled stage | .storeFailed stage =>
      (call.nStages - stage) * call.stageSteps + 2
  | .stampFinal stage | .stampStage stage =>
      (call.nStages - stage) * call.stageSteps + 1
  | .left _ => 0

/-- The blocks of a stage that may still be handed out. -/
def State.blocksLeft (call : Call) (state : State) (stage : ℕ) : ℕ :=
  if (pastSlots call state stage).card = call.participants then 0
  else call.blockCount - state.own.counter stage

/-- Atomic operations a call has left, at most; the join is one. -/
def State.remaining (call : Call) (state : State) : ℕ :=
  (if state.outcome = none then 1 else 0) +
    ∑ slot ∈ Finset.range call.participants, (state.pc slot).remaining call +
    3 * ∑ stage ∈ Finset.range call.nStages, state.blocksLeft call stage

section Measure

variable {call : Call} {trace : List Event} {before after : State}
variable {slot stage : ℕ} {pc : Pc} {event : Option Event}

theorem stage_split (hstage : stage < call.nStages) :
    (call.nStages - stage) * call.stageSteps =
      (call.nStages - (stage + 1)) * call.stageSteps + call.stageSteps := by
  rw [← Nat.succ_mul]
  congr 1
  omega

theorem remaining_enterStage_lt (hstage : stage < call.nStages) :
    (enterStage call (stage + 1)).remaining call <
      (call.nStages - stage) * call.stageSteps + 1 := by
  have hsplit := stage_split hstage
  have hsteps : call.stageSteps = call.participants + 12 := rfl
  obtain ⟨hlt, -, h⟩ | ⟨hlt, hzero, h⟩ | ⟨-, h⟩ :=
    enterStage_cases call (stage + 1)
  · simp only [h, Pc.remaining]
    omega
  · omega
  · simp [h, Pc.remaining]

/-- A step that claims nothing leaves its slot with less to do. -/
theorem stepSlot_remaining (hok : PcOk call trace before slot (before.pc slot))
    (hclaim : ∀ stage, before.pc slot ≠ .claim stage)
    (hstep : stepSlot call before slot = some (after, event)) :
    (after.pc slot).remaining call < (before.pc slot).remaining call ∧
      after.own.counter = before.own.counter := by
  cases hpc : before.pc slot with
  | claim stage => exact absurd hpc (hclaim stage)
  | stampStage stage =>
      rw [hpc] at hok
      have henter : (enterStage call (stage + 1)).remaining call < _ :=
        remaining_enterStage_lt hok
      obtain ⟨rfl, rfl⟩ := by simpa [stepSlot, hpc] using hstep
      exact ⟨by simpa [State.setPc, Pc.remaining] using henter, rfl⟩
  | scanPeers stage step =>
      rw [hpc] at hok
      have hless := hok.2.2.2.1
      simp only [stepSlot, hpc] at hstep
      split at hstep
      · simp at hstep
      split at hstep <;>
        (obtain ⟨rfl, rfl⟩ := by simpa using hstep) <;>
        refine ⟨?_, rfl⟩ <;>
        simp only [State.setPc, Function.update_self, Pc.remaining] <;> omega
  | left passed => simp [stepSlot, hpc] at hstep
  | _ =>
      simp only [stepSlot, hpc] at hstep
      repeat' split at hstep
      all_goals
        (obtain ⟨rfl, rfl⟩ := by simpa using hstep)
        refine ⟨?_, rfl⟩
        simp only [State.setPc, State.stamp, Function.update_self,
          Pc.remaining]
        omega

theorem card_pastSlots_le (call : Call) (state : State) (stage : ℕ) :
    (pastSlots call state stage).card ≤ call.participants := by
  have hcard := Finset.card_filter_le (Finset.range call.participants)
    fun slot => stage < (state.pc slot).passed
  rwa [Finset.card_range] at hcard

/-- Where the counter stands still no block is added. -/
theorem blocksLeft_le (hmoves : Moves Pc.passed slot pc before after)
    (hcounter : after.own.counter stage = before.own.counter stage) :
    after.blocksLeft call stage ≤ before.blocksLeft call stage := by
  have hsub : pastSlots call before stage ⊆ pastSlots call after stage :=
    pastSlots_mono hmoves.grows
  have hcard := Finset.card_le_card hsub
  have hmost := card_pastSlots_le call after stage
  unfold State.blocksLeft
  rw [hcounter]
  repeat' split
  all_goals omega

/-- A slot that moves closer to its end, and what is left of the blocks. -/
theorem remaining_lt_of_slot (gain : ℕ) (hslot : slot < call.participants)
    (hmoves : Moves Pc.passed slot pc before after)
    (hpc : (after.pc slot).remaining call <
      (before.pc slot).remaining call + 3 * gain)
    (hblocks : ∑ stage ∈ Finset.range call.nStages,
        after.blocksLeft call stage + gain ≤
      ∑ stage ∈ Finset.range call.nStages, before.blocksLeft call stage) :
    after.remaining call < before.remaining call := by
  have hmem := Finset.mem_range.2 hslot
  have hbefore := Finset.add_sum_erase _
    (fun other => (before.pc other).remaining call) hmem
  have hafter := Finset.add_sum_erase _
    (fun other => (after.pc other).remaining call) hmem
  have hothers : ∑ other ∈ (Finset.range call.participants).erase slot,
        (after.pc other).remaining call =
      ∑ other ∈ (Finset.range call.participants).erase slot,
        (before.pc other).remaining call := by
    refine Finset.sum_congr rfl fun other hother => ?_
    rw [hmoves.atPc, Function.update_of_ne (Finset.ne_of_mem_erase hother)]
  simp only [State.remaining, hmoves.outcome]
  omega

theorem claim_moves (pc : Pc) (hpc : before.pc slot = .claim stage)
    (hpassed : stage ≤ pc.passed) :
    Moves Pc.passed slot pc before ((before.fetchAdd stage).setPc slot pc) :=
  ⟨rfl, by simpa [hpc, Pc.passed, Pc.stage] using hpassed, fun _ _ => rfl,
    le_rfl, id, rfl, id, rfl⟩

/-- A claim behind the last block leaves no block of the stage. -/
theorem overshoot_remaining (hfits : call.Fits) {fetched : ℕ}
    (hstage : StageInv call trace before stage fetched)
    (hslot : slot < call.participants) (hpc : before.pc slot = .claim stage)
    (hvalue : before.own.counter stage = fetched)
    (hall : call.blockCount ≤ fetched) :
    State.remaining call
      ((before.fetchAdd stage).setPc slot (.stampStage stage)) <
        before.remaining call := by
  have hmoves := claim_moves (.stampStage stage) hpc (Nat.le_succ stage)
  have hpassed : (before.pc slot).passed = stage := by
    simp [hpc, Pc.passed, Pc.stage]
  refine remaining_lt_of_slot 0 hslot hmoves ?_ ?_
  · simp only [State.setPc, State.fetchAdd, Function.update_self, hpc,
      Pc.remaining]
    omega
  · rw [Nat.add_zero]
    refine Finset.sum_le_sum fun other _ => ?_
    by_cases hother : other = stage
    · subst hother
      have hmore := card_pastSlots_succ hmoves hslot hpassed.le
        (Nat.lt_succ_self other)
      have hmost := card_pastSlots_le call
        ((before.fetchAdd other).setPc slot (.stampStage other)) other
      have hfetched := hstage.fetched_le
      simp only [State.blocksLeft]
      split
      · exact Nat.zero_le _
      next hnot =>
        unfold Call.Fits at hfits
        have hcounter : ((before.fetchAdd other).setPc slot
            (.stampStage other)).own.counter other = fetched + 1 := by
          simp only [State.setPc, State.fetchAdd, Function.update_self,
            hvalue]
          exact word_of_lt (by omega)
        rw [hcounter]
        omega
    · exact blocksLeft_le hmoves (by simp [State.setPc, State.fetchAdd, hother])

/-- A claim in front of the last block uses up one block of the stage. -/
theorem claimed_remaining {fetched : ℕ} (hlast : stage < call.nStages)
    (hslot : slot < call.participants) (hpc : before.pc slot = .claim stage)
    (hvalue : before.own.counter stage = fetched)
    (hmore : fetched < call.blockCount) :
    State.remaining call
      ((before.fetchAdd stage).setPc slot (.inBlock stage fetched)) <
        before.remaining call := by
  have hmoves := claim_moves (.inBlock stage fetched) hpc le_rfl
  have hpassed : (before.pc slot).passed = stage := by
    simp [hpc, Pc.passed, Pc.stage]
  refine remaining_lt_of_slot 1 hslot hmoves ?_ ?_
  · simp only [State.setPc, State.fetchAdd, Function.update_self, hpc,
      Pc.remaining]
    omega
  · refine Nat.succ_le_of_lt (Finset.sum_lt_sum (fun other _ => ?_)
      ⟨stage, Finset.mem_range.2 hlast, ?_⟩)
    · by_cases hother : other = stage
      · subst hother
        have hcounter : ((before.fetchAdd other).setPc slot
            (.inBlock other fetched)).own.counter other = fetched + 1 := by
          have := call.blockCount_lt
          simp only [State.setPc, State.fetchAdd, Function.update_self,
            hvalue]
          exact word_of_lt (by omega)
        have hroom := card_pastSlots_lt hslot hpassed.le
        simp only [State.blocksLeft, hcounter, hvalue]
        repeat' split
        all_goals omega
      · exact blocksLeft_le hmoves
          (by simp [State.setPc, State.fetchAdd, hother])
    · have hcounter : ((before.fetchAdd stage).setPc slot
          (.inBlock stage fetched)).own.counter stage = fetched + 1 := by
        have := call.blockCount_lt
        simp only [State.setPc, State.fetchAdd, Function.update_self, hvalue]
        exact word_of_lt (by omega)
      have hroom := card_pastSlots_lt hslot hpassed.le
      simp only [State.blocksLeft, hcounter, hvalue]
      repeat' split
      all_goals omega

/-- Every step but a stop request leaves the call with less to do. -/
theorem remaining_lt (hfits : call.Fits) (hinv : Inv call trace before)
    {action : Action} (haction : action ≠ .requestStop)
    (hstep : (dynamicChain call).step before action = some (after, event)) :
    after.remaining call < before.remaining call := by
  cases action with
  | slot slot =>
      simp only [dynamicChain] at hstep
      split at hstep
      next hslot =>
        have hok := (hinv.slots slot hslot).pcOk
        by_cases hclaim : ∃ stage, before.pc slot = .claim stage
        · obtain ⟨stage, hpc⟩ := hclaim
          rw [hpc] at hok
          obtain ⟨fetched, hstage⟩ := hinv.stages stage
          have hvalue : before.own.counter stage = fetched := by
            rw [hstage.counter, word_of_lt (hstage.fetched_lt hfits hslot
              (by simp [hpc, Pc.passed, Pc.stage]))]
          simp only [stepSlot, hpc, hvalue] at hstep
          split at hstep
          next hall =>
            obtain ⟨rfl, rfl⟩ := by simpa using hstep
            exact overshoot_remaining hfits hstage hslot hpc hvalue hall
          next hmore =>
            obtain ⟨rfl, rfl⟩ := by simpa using hstep
            exact claimed_remaining hok.1 hslot hpc hvalue (by omega)
        · push Not at hclaim
          obtain ⟨hless, hcounter⟩ := stepSlot_remaining hok hclaim hstep
          obtain ⟨pc, hstepOk⟩ := stepSlot_ok hfits hinv hslot hstep
          refine remaining_lt_of_slot 0 hslot hstepOk.moves (by omega) ?_
          rw [Nat.add_zero]
          refine Finset.sum_le_sum fun stage _ => ?_
          exact blocksLeft_le hstepOk.moves (by rw [hcounter])
      next => simp at hstep
  | join =>
      simp only [dynamicChain] at hstep
      split at hstep
      next hready =>
        obtain ⟨rfl, rfl⟩ := by simpa using hstep
        have hkept : ∀ stage, State.blocksLeft call { before with
            outcome := some (rethrowIfCaptured before.firstException) }
            stage = before.blocksLeft call stage := fun _ => rfl
        simp only [State.remaining, hready.1, hkept, reduceCtorEq, if_true,
          if_false]
        omega
      next => simp at hstep
  | requestStop => exact absurd rfl haction

end Measure

/-! ## What a caller sees -/

/-- Block coverage, stage order and completion of one run. -/
structure ChainSafe (call : Call) (trace : List Event) (state : State) :
    Prop where
  tiles : Tiles call
  /-- In every stage only blocks of the range are started, none twice. -/
  once : ∀ stage, (startedBlocks stage trace).Nodup ∧
    ∀ block ∈ startedBlocks stage trace, block < call.blockCount
  /-- A block starts behind the ends of all blocks of the stage before. -/
  separated : ∀ earlier later stage slot block,
    trace = earlier ++ .blockStart (stage + 1) slot block :: later →
    ∀ before < call.blockCount, ∃ peer < call.participants,
      .blockEnd stage peer before ∈ earlier
  /-- An undisturbed call runs every block of every stage exactly once. -/
  complete : state.outcome ≠ none → state.stopRequested = false →
    (∀ failure, .blockThrow failure ∉ trace) → ∀ stage < call.nStages,
      startedBlocks stage trace = List.range call.blockCount ∧
        ∀ block < call.blockCount, ∃ slot < call.participants,
          .blockEnd stage slot block ∈ trace
  /-- Until the call has ended some slot or the join can take a step. -/
  enabled : state.outcome = none → ∃ action after event,
    action ≠ .requestStop ∧
      (dynamicChain call).step state action = some (after, event)
  /-- Every such step leaves less to do. -/
  shorter : ∀ action after event, action ≠ .requestStop →
    (dynamicChain call).step state action = some (after, event) →
    after.remaining call < state.remaining call
  /-- So no stamp is awaited for ever and the call can be completed. -/
  completes : ∃ later last,
    Run (dynamicChain call) (fun _ action => action ≠ .requestStop) state
        later last ∧
      last.outcome ≠ none
  /-- It rethrows the first captured failure, or returns if no block threw. -/
  outcome : ∀ outcome, state.outcome = some outcome →
    outcome = rethrowIfCaptured (trace.filterMap Event.failure).head? ∧
      (outcome = .returned ↔ ∀ failure, .blockThrow failure ∉ trace)

section Caller

variable {call : Call} {trace : List Event} {state : State}

/-- A block starts at a claim only. -/
theorem step_blockStart {before after : State} {action : Action}
    {stage slot block : ℕ}
    (hstep : (dynamicChain call).step before action =
      some (after, some (.blockStart stage slot block))) :
    slot < call.participants ∧ before.pc slot = .claim stage := by
  cases action with
  | slot mover =>
      simp only [dynamicChain] at hstep
      split at hstep
      next hmover =>
        cases hpc : before.pc mover <;> simp only [stepSlot, hpc] at hstep
        all_goals
          repeat' split at hstep
        all_goals
          simp only [Option.some.injEq, Prod.mk.injEq, reduceCtorEq, and_false,
            Event.blockStart.injEq] at hstep
        obtain ⟨-, rfl, rfl, -⟩ := hstep
        exact ⟨hmover, hpc⟩
      next => simp at hstep
  | join =>
      simp only [dynamicChain] at hstep
      split at hstep <;> simp at hstep
  | requestStop => simp [dynamicChain] at hstep

theorem stagesDone_of_run (hfits : call.Fits)
    (run : Reaches (dynamicChain call) (start call) trace state)
    {earlier later : List Event} {stage slot block : ℕ}
    (htrace : trace = earlier ++ .blockStart stage slot block :: later) :
    StagesDone call earlier stage := by
  refine run.at_event (Inv call)
    (fun earlier event => ∀ stage slot block,
      event = .blockStart stage slot block → StagesDone call earlier stage)
    (inv_run hfits) ?_ earlier _ later htrace stage slot block rfl
  intro earlier before action after event hinv _ hstep stage slot block hevent
  subst hevent
  obtain ⟨hslot, hpc⟩ := step_blockStart hstep
  have hok := (hinv.slots slot hslot).pcOk
  rw [hpc] at hok
  exact hok.2

theorem Inv.left_of_allLeft {slot : ℕ}
    (hall : state.allLeft Pc.hasLeft call.participants = true)
    (hslot : slot < call.participants) :
    ∃ passed, state.pc slot = .left passed := by
  have hleft := state.allLeft_iff.1 hall slot hslot
  cases hpc : state.pc slot with
  | left passed => exact ⟨passed, rfl⟩
  | _ => simp [hpc, Pc.hasLeft] at hleft

/-- An ended call has captured a failure exactly if some block threw. -/
theorem Inv.firstException_eq_none_iff (hinv : Inv call trace state)
    (hall : state.allLeft Pc.hasLeft call.participants = true) :
    state.firstException = none ↔
      ∀ failure, .blockThrow failure ∉ trace := by
  rw [hinv.failures.captured, List.head?_eq_none_iff,
    List.filterMap_eq_nil_iff]
  constructor
  · intro hnone failure hthrew
    rcases hinv.failures.threw failure hthrew with hcaptured | ⟨hslot, hat⟩
    · simpa [Event.failure] using hnone _ hcaptured
    · obtain ⟨passed, hpc⟩ := Inv.left_of_allLeft hall hslot
      simp [hpc] at hat
  · intro hnever event hevent
    cases event with
    | captured failure =>
        exact absurd (hinv.failures.caught failure hevent) (hnever failure)
    | _ => rfl

/-- An ended, undisturbed call has every slot through every stage. -/
theorem Inv.passed_of_undisturbed (hinv : Inv call trace state)
    (hall : state.allLeft Pc.hasLeft call.participants = true)
    (hquiet : state.stopRequested = false)
    (hnever : ∀ failure, .blockThrow failure ∉ trace) :
    state.cancelled = false ∧ ∀ slot < call.participants,
      (state.pc slot).passed = call.nStages := by
  have hclear : state.cancelled = false := by
    by_contra hset
    rcases hinv.failures.disturbed (by simpa using hset) with hstop | hfirst
    · simp [hquiet] at hstop
    · exact hfirst ((hinv.firstException_eq_none_iff hall).2 hnever)
  refine ⟨hclear, fun slot hslot => ?_⟩
  obtain ⟨passed, hpc⟩ := Inv.left_of_allLeft hall hslot
  have hok := (hinv.slots slot hslot).pcOk
  rw [hpc] at hok ⊢
  simpa [PcOk, hclear, Pc.passed, Pc.stage] using hok

/-- For every list of rendezvous stages, range, chunk, set of throwing blocks,
time of a stop request and interleaving: a dynamic chain call whose counters
fit is safe and comes to its end. -/
theorem chainSafe_of_run (call : Call) (hfits : call.Fits)
    {trace : List Event} {state : State}
    (run : Reaches (dynamicChain call) (start call) trace state) :
    ChainSafe call trace state where
  tiles := tiles call
  once stage := by
    obtain ⟨fetched, hstage⟩ := (inv_run hfits run).stages stage
    rw [hstage.started]
    refine ⟨List.nodup_range, fun block hblock => ?_⟩
    have := List.mem_range.1 hblock
    omega
  separated _ _ stage _ _ htrace block hblock :=
    stagesDone_of_run hfits run htrace stage (Nat.lt_succ_self stage) block
      hblock
  complete := by
    intro hended hquiet hnever stage hstage
    have hinv := inv_run hfits run
    obtain ⟨outcome, houtcome⟩ := Option.ne_none_iff_exists'.1 hended
    obtain ⟨hclear, hpassed⟩ := hinv.passed_of_undisturbed
      (hinv.outcome _ houtcome).1 hquiet hnever
    obtain ⟨fetched, hcounter⟩ := hinv.stages stage
    have htwo := call.two_le
    have hall : call.blockCount ≤ fetched := by
      refine hcounter.exhausted hclear ⟨0, ?_⟩
      rw [mem_pastSlots, hpassed 0 (by omega)]
      exact ⟨by omega, hstage⟩
    refine ⟨by rw [hcounter.started, min_eq_right hall], ?_⟩
    exact hinv.stagesDone hclear (fun peer hpeer => (hpassed peer hpeer).ge)
      stage hstage
  enabled hrunning := (inv_run hfits run).exists_step hrunning
  shorter _ _ _ haction hstep :=
    remaining_lt hfits (inv_run hfits run) haction hstep
  completes := by
    refine exists_completion (State.remaining call)
      (fun state => ∃ trace, Inv call trace state) ?_ ?_ ?_
      ⟨trace, inv_run hfits run⟩
    · rintro state ⟨trace, hinv⟩ hrunning
      exact hinv.exists_step (by simpa using hrunning)
    · rintro state action after event ⟨trace, hinv⟩ _ hstep
      exact ⟨_, inv_step hfits hinv hstep⟩
    · rintro state action after event ⟨trace, hinv⟩ haction hstep
      exact remaining_lt hfits hinv haction hstep
  outcome := by
    intro outcome houtcome
    have hinv := inv_run hfits run
    obtain ⟨hall, hvalue⟩ := hinv.outcome outcome houtcome
    refine ⟨by rw [hvalue, hinv.failures.captured], ?_⟩
    rw [← hinv.firstException_eq_none_iff hall, hvalue]
    cases state.firstException <;> simp [rethrowIfCaptured]

end Caller

/-- Two slots share three blocks of two stages; the second block of the second
stage throws. -/
def throwingCall : Call where
  participants := 2
  two_le := Nat.one_lt_two
  barriers := [.global, .deterministicReduce]
  rebalance := by decide
  n := 5
  n_pos := by decide
  n_lt := by decide
  hintChunk := 2
  hintChunk_lt := by decide
  throws := fun stage _ block => stage == 1 && block == 1
  epochs := .fresh

def throwingSchedule : List Action :=
  List.flatten [List.replicate 8 (.slot 0), List.replicate 8 (.slot 1),
    List.replicate 3 (.slot 0), List.replicate 7 (.slot 1),
    List.replicate 9 (.slot 0), List.replicate 4 (.slot 1), [.join]]

theorem chainSafe_throwingCall :
    ∃ trace state, state.outcome = some (.rethrew ⟨1, 0, 1⟩) ∧
      ChainSafe throwingCall trace state := by
  obtain ⟨trace, state, run, hended⟩ :=
    reaches_of_check (dynamicChain throwingCall) (start throwingCall)
      throwingSchedule
      (fun _ state => state.outcome = some (.rethrew ⟨1, 0, 1⟩))
      (by decide +kernel)
  exact ⟨trace, state, by simpa using hended,
    chainSafe_of_run _ (by decide +kernel) run⟩

/-! ## Counters that do not fit -/

/-- The first stage with the slots from `first` on still in front of it. -/
structure Waiting (call : Call) (state : State) (first count : ℕ) : Prop where
  pc : ∀ slot, first ≤ slot → state.pc slot = .loadCancelled 0
  counter : state.own.counter 0 = count
  clear : state.cancelled = false
  quiet : state.stopRequested = false

section Overflow

variable {call : Call} {trace : List Event} {state : State}

/-- The next slot comes up to its claim loop. -/
theorem Waiting.loopHead {first count : ℕ} (hfirst : first < call.participants)
    (run : Reaches (dynamicChain call) (start call) trace state)
    (hwaiting : Waiting call state first count) :
    ∃ after, Reaches (dynamicChain call) (start call) trace after ∧
      after.pc first = .loopHead 0 ∧ Waiting call after (first + 1) count := by
  have hpc := hwaiting.pc first le_rfl
  have hload : (dynamicChain call).step state (.slot first) =
      some (state.setPc first (.pollToken 0), none) := by
    simp [dynamicChain, hfirst, stepSlot, hpc, hwaiting.clear]
  have hpoll : (dynamicChain call).step
      (state.setPc first (.pollToken 0)) (.slot first) =
      some ((state.setPc first (.pollToken 0)).setPc first (.loopHead 0),
        none) := by
    simp [dynamicChain, hfirst, stepSlot, State.setPc, hwaiting.quiet]
  have hrun := (run.next trivial hload).next trivial hpoll
  simp only [Option.toList_none, List.append_nil] at hrun
  refine ⟨_, hrun, by simp [State.setPc], ⟨fun slot hslot => ?_, hwaiting.counter,
      hwaiting.clear, hwaiting.quiet⟩⟩
  have hne : slot ≠ first := by omega
  simpa [State.setPc, hne] using hwaiting.pc slot (by omega)

/-- A slot in its claim loop takes the next block. -/
theorem Waiting.claim {slot first count : ℕ} (hslot : slot < call.participants)
    (hless : slot < first) (hmore : count < call.blockCount)
    (run : Reaches (dynamicChain call) (start call) trace state)
    (hpc : state.pc slot = .loopHead 0)
    (hwaiting : Waiting call state first count) :
    ∃ after, Reaches (dynamicChain call) (start call)
        (trace ++ [.blockStart 0 slot count]) after ∧
      after.pc slot = .inBlock 0 count ∧
      Waiting call after first (count + 1) := by
  have hcount : word (count + 1) = count + 1 := by
    have := call.blockCount_lt
    exact word_of_lt (by omega)
  have hhead : (dynamicChain call).step state (.slot slot) =
      some (state.setPc slot (.claim 0), none) := by
    simp [dynamicChain, hslot, stepSlot, hpc, hwaiting.clear]
  have hclaim : (dynamicChain call).step (state.setPc slot (.claim 0))
      (.slot slot) =
      some ((State.fetchAdd (state.setPc slot (.claim 0)) 0).setPc slot
        (.inBlock 0 count), some (.blockStart 0 slot count)) := by
    simp [dynamicChain, hslot, stepSlot, State.setPc, hwaiting.counter,
      Nat.not_le.2 hmore]
  have hrun := (run.next trivial hhead).next trivial hclaim
  simp only [Option.toList_none, Option.toList_some, List.append_nil] at hrun
  refine ⟨_, hrun, by simp [State.setPc], ⟨fun other hother => ?_, ?_, hwaiting.clear,
      hwaiting.quiet⟩⟩
  · have hne : other ≠ slot := by omega
    simpa [State.setPc, State.fetchAdd, hne] using hwaiting.pc other hother
  · simp [State.setPc, State.fetchAdd, hwaiting.counter, hcount]

/-- A slot in its claim loop runs over the last block. -/
theorem Waiting.overshoot {slot first count : ℕ}
    (hslot : slot < call.participants) (hless : slot < first)
    (hall : call.blockCount ≤ count)
    (run : Reaches (dynamicChain call) (start call) trace state)
    (hpc : state.pc slot = .loopHead 0)
    (hwaiting : Waiting call state first count) :
    ∃ after, Reaches (dynamicChain call) (start call) trace after ∧
      Waiting call after first (word (count + 1)) := by
  have hhead : (dynamicChain call).step state (.slot slot) =
      some (state.setPc slot (.claim 0), none) := by
    simp [dynamicChain, hslot, stepSlot, hpc, hwaiting.clear]
  have hclaim : (dynamicChain call).step (state.setPc slot (.claim 0))
      (.slot slot) =
      some ((State.fetchAdd (state.setPc slot (.claim 0)) 0).setPc slot
        (.stampStage 0), none) := by
    simp [dynamicChain, hslot, stepSlot, State.setPc, hwaiting.counter, hall]
  have hrun := (run.next trivial hhead).next trivial hclaim
  simp only [Option.toList_none, List.append_nil] at hrun
  refine ⟨_, hrun, ⟨fun other hother => ?_, ?_, hwaiting.clear, hwaiting.quiet⟩⟩
  · have hne : other ≠ slot := by omega
    simpa [State.setPc, State.fetchAdd, hne] using hwaiting.pc other hother
  · simp [State.setPc, State.fetchAdd, hwaiting.counter]

/-- Where nothing throws slot 0 can run every block of the first stage. -/
theorem exists_allBlocks (hstages : 0 < call.nStages)
    (hnever : ∀ stage slot block, call.throws stage slot block = false)
    {count : ℕ} (hcount : count ≤ call.blockCount) :
    ∃ trace state, Reaches (dynamicChain call) (start call) trace state ∧
      state.pc 0 = .loopHead 0 ∧ Waiting call state 1 count ∧
      startedBlocks 0 trace = List.range count := by
  have htwo := call.two_le
  induction count with
  | zero =>
      have hstart : Waiting call (start call) 0 0 :=
        ⟨fun slot _ => by simp [start, enterStage, hstages], rfl, rfl, rfl⟩
      obtain ⟨state, run, hpc, hwaiting⟩ :=
        hstart.loopHead (by omega) .start
      exact ⟨[], state, run, hpc, hwaiting, rfl⟩
  | succ count ih =>
      obtain ⟨trace, before, run, hpc, hwaiting, hstarted⟩ := ih (by omega)
      obtain ⟨state, run, hpc, hwaiting⟩ :=
        hwaiting.claim (by omega) Nat.zero_lt_one (by omega) run hpc
      have hend : (dynamicChain call).step state (.slot 0) =
          some (state.setPc 0 (.loopHead 0), some (.blockEnd 0 0 count)) := by
        have hzero : 0 < call.participants := by omega
        simp [dynamicChain, hzero, stepSlot, hpc, hnever]
      refine ⟨_, _, run.next trivial hend, by simp [State.setPc],
        ⟨fun slot hslot => ?_, hwaiting.counter, hwaiting.clear,
          hwaiting.quiet⟩, ?_⟩
      · have hne : slot ≠ 0 := by omega
        simpa [State.setPc, hne] using hwaiting.pc slot hslot
      · rw [startedBlocks] at hstarted
        rw [List.range_succ, ← hstarted]
        simp [startedBlocks, Event.starts]

/-- After that the slots run over the last block one by one. -/
theorem exists_overshot (hstages : 0 < call.nStages)
    (hnever : ∀ stage slot block, call.throws stage slot block = false)
    {gone : ℕ} (hgone : gone < call.participants)
    (hroom : call.blockCount + gone < 2 ^ 64) :
    ∃ trace state, Reaches (dynamicChain call) (start call) trace state ∧
      Waiting call state (gone + 1) (word (call.blockCount + gone + 1)) ∧
      startedBlocks 0 trace = List.range call.blockCount := by
  induction gone with
  | zero =>
      obtain ⟨trace, before, run, hpc, hwaiting, hstarted⟩ :=
        exists_allBlocks hstages hnever le_rfl
      obtain ⟨state, run, hwaiting⟩ :=
        hwaiting.overshoot hgone Nat.zero_lt_one le_rfl run hpc
      exact ⟨trace, state, run, hwaiting, hstarted⟩
  | succ gone ih =>
      obtain ⟨trace, before, run, hwaiting, hstarted⟩ :=
        ih (by omega) (by omega)
      rw [word_of_lt (by omega)] at hwaiting
      obtain ⟨middle, run, hpc, hwaiting⟩ := hwaiting.loopHead hgone run
      obtain ⟨state, run, hwaiting⟩ :=
        hwaiting.overshoot hgone (Nat.lt_succ_self _) (by omega) run hpc
      exact ⟨trace, state, run, hwaiting, hstarted⟩

/-- A call without throws whose counters do not fit has a run in which the
first stage's counter wraps and block 0 is handed out again. -/
theorem exists_run_twice (hstages : 0 < call.nStages)
    (hnever : ∀ stage slot block, call.throws stage slot block = false)
    (hfits : ¬ call.Fits) :
    ∃ trace state, Reaches (dynamicChain call) (start call) trace state ∧
      startedBlocks 0 trace = List.range call.blockCount ++ [0] := by
  have hcount := call.blockCount_lt
  have hpos := call.blockCount_pos
  unfold Call.Fits at hfits
  obtain ⟨trace, before, run, hwaiting, hstarted⟩ :=
    exists_overshot hstages hnever
      (show 2 ^ 64 - call.blockCount - 1 < call.participants by omega)
      (by omega)
  have hwrapped : word (call.blockCount + (2 ^ 64 - call.blockCount - 1) + 1) =
      0 := by
    have hsum : call.blockCount + (2 ^ 64 - call.blockCount - 1) + 1 =
        2 ^ 64 := by omega
    rw [hsum, word, Nat.mod_self]
  rw [hwrapped] at hwaiting
  have hnext : 2 ^ 64 - call.blockCount - 1 + 1 < call.participants := by omega
  obtain ⟨middle, run, hpc, hwaiting⟩ := hwaiting.loopHead hnext run
  obtain ⟨state, run, -, -⟩ :=
    hwaiting.claim hnext (Nat.lt_succ_self _) hpos run hpc
  refine ⟨_, state, run, ?_⟩
  rw [startedBlocks] at hstarted
  simp [startedBlocks, hstarted, Event.starts]

/-- So such a call is safe in every run exactly if its counters fit. -/
theorem fits_of_chainSafe (hstages : 0 < call.nStages)
    (hnever : ∀ stage slot block, call.throws stage slot block = false)
    (hsafe : ∀ trace state,
      Reaches (dynamicChain call) (start call) trace state →
      ChainSafe call trace state) : call.Fits := by
  by_contra hfits
  obtain ⟨trace, state, run, hstarted⟩ :=
    exists_run_twice hstages hnever hfits
  have hnodup := ((hsafe trace state run).once 0).1
  rw [hstarted, List.nodup_append] at hnodup
  exact hnodup.2.2 0 (List.mem_range.2 call.blockCount_pos) 0 (by simp) rfl

end Overflow

/-- Two slots and one stage of `2 ^ 64 - 1` blocks of one index. -/
def overflowingCall : Call where
  participants := 2
  two_le := Nat.one_lt_two
  barriers := [.global]
  rebalance := by decide
  n := 2 ^ 64 - 1
  n_pos := by decide
  n_lt := by decide
  hintChunk := 1
  hintChunk_lt := by decide
  throws := fun _ _ _ => false
  epochs := .fresh

theorem not_chainSafe_overflowingCall :
    ∃ trace state,
      Reaches (dynamicChain overflowingCall) (start overflowingCall) trace
          state ∧
        ¬ ChainSafe overflowingCall trace state := by
  obtain ⟨trace, state, run, hstarted⟩ :=
    exists_run_twice (show 0 < overflowingCall.nStages by decide)
      (fun _ _ _ => rfl) (by decide +kernel)
  refine ⟨trace, state, run, fun hsafe => ?_⟩
  have hnodup := (hsafe.once 0).1
  rw [hstarted, List.nodup_append] at hnodup
  exact hnodup.2.2 0 (List.mem_range.2 overflowingCall.blockCount_pos) 0
    (by simp) rfl

end Citor.DynamicChain
