import Citor.Chain.DynamicRunner

/-!
# The invariant of the dynamic chain

The stage counter counts claims: the ids handed out are an initial segment of
the naturals, and every further claim takes one slot past the stage.  So the
counter runs over the block count by at most the number of participants, and
as long as that fits into 64 bits no id is handed out twice.
-/

namespace Citor.DynamicChain

open Citor.Interleaving
open Citor.DoneSlots
open Citor.SlotRunners
open Citor.MachineWord

/-- The stage a slot is at. -/
def Pc.stage : Pc → ℕ
  | .scanPeers stage _ | .loadCancelled stage | .pollToken stage
  | .repollToken stage | .storeCancelled stage | .stampFinal stage
  | .loopHead stage | .claim stage | .inBlock stage _ | .capture stage _
  | .storeFailed stage | .stampStage stage | .left stage => stage

/-- The stages whose claim loop the slot has finished. -/
def Pc.passed : Pc → ℕ
  | .stampStage stage => stage + 1
  | pc => pc.stage

/-- The failure an event hands to `firstException`. -/
def Event.failure : Event → Option Failure
  | .captured failure => some failure
  | _ => none

/-- The block of `stage` an event starts. -/
def Event.starts (stage : ℕ) : Event → Option ℕ
  | .blockStart started _ block => if started = stage then some block else none
  | _ => none

/-- The blocks of `stage` in the order they were claimed. -/
def startedBlocks (stage : ℕ) (trace : List Event) : List ℕ :=
  trace.filterMap (Event.starts stage)

/-- Every block of the stages before `stage` has run to its end. -/
def StagesDone (call : Call) (trace : List Event) (stage : ℕ) : Prop :=
  ∀ before < stage, ∀ block < call.blockCount,
    ∃ slot < call.participants, .blockEnd before slot block ∈ trace

/-- The stamps a slot has waited for in front of `stage`. -/
def Waited (call : Call) (state : State) (stage slot : ℕ) : Prop :=
  0 < stage → ∀ peer < call.participants, peer ≠ slot →
    call.epochs.epochBase + stage ≤ state.done peer

/-- What a program counter alone says about the state. -/
def PcOk (call : Call) (trace : List Event) (state : State) (slot : ℕ) :
    Pc → Prop
  | .scanPeers stage step =>
      stage < call.nStages ∧ 0 < stage ∧ 1 ≤ step ∧
        step < call.participants ∧
        ∀ earlier, 1 ≤ earlier → earlier < step →
          call.epochs.epochBase + stage ≤
            state.done (scanPeer call.participants slot earlier)
  | .loadCancelled stage => stage < call.nStages ∧ Waited call state stage slot
  | .pollToken stage | .loopHead stage | .claim stage =>
      stage < call.nStages ∧ StagesDone call trace stage
  | .repollToken stage =>
      stage < call.nStages ∧
        (state.cancelled = true ∨ state.stopRequested = true)
  | .storeCancelled stage =>
      stage < call.nStages ∧ state.stopRequested = true
  | .stampFinal stage => stage < call.nStages ∧ state.cancelled = true
  | .inBlock stage block =>
      stage < call.nStages ∧ StagesDone call trace stage ∧
        block < call.blockCount
  | .capture stage block =>
      stage < call.nStages ∧ .blockThrow ⟨stage, slot, block⟩ ∈ trace
  | .storeFailed stage => stage < call.nStages ∧ state.firstException ≠ none
  | .stampStage stage => stage < call.nStages
  | .left passed =>
      passed = call.nStages ∨
        (passed < call.nStages ∧ state.cancelled = true ∧
          state.done slot = call.epochs.epochBase + call.nStages)

/-- The invariant as one slot sees it. -/
structure SlotInv (call : Call) (trace : List Event) (state : State)
    (slot : ℕ) : Prop where
  pcOk : PcOk call trace state slot (state.pc slot)
  stamp_le : StampLe Pc.passed Pc.hasLeft call.epochs.epochBase call.nStages
    state slot
  le_stamp : ∀ stage < (state.pc slot).stage,
    call.epochs.epochBase + (stage + 1) ≤ state.done slot

/-- The slots that are past the claim loop of `stage`. -/
def pastSlots (call : Call) (state : State) (stage : ℕ) : Finset ℕ :=
  {slot ∈ Finset.range call.participants | stage < (state.pc slot).passed}

/-- A claimed block has ended, or is in the hands of a slot, or the call is
cancelled. -/
def Settled (call : Call) (trace : List Event) (state : State)
    (stage block : ℕ) : Prop :=
  (∃ slot < call.participants, .blockEnd stage slot block ∈ trace) ∨
    (∃ slot < call.participants, state.pc slot = .inBlock stage block ∨
      state.pc slot = .capture stage block ∨
      state.pc slot = .storeFailed stage) ∨
    state.cancelled = true

/-- The invariant of one stage counter after `fetched` claims. -/
structure StageInv (call : Call) (trace : List Event) (state : State)
    (stage fetched : ℕ) : Prop where
  counter : state.own.counter stage = word fetched
  fetched_le : fetched ≤ call.blockCount + (pastSlots call state stage).card
  started : startedBlocks stage trace =
    List.range (min fetched call.blockCount)
  settled : ∀ block < min fetched call.blockCount,
    Settled call trace state stage block
  exhausted : state.cancelled = false →
    (pastSlots call state stage).Nonempty → call.blockCount ≤ fetched

/-- What has become of the failures. -/
structure FailuresOk (call : Call) (trace : List Event) (state : State) :
    Prop where
  captured : state.firstException = (trace.filterMap Event.failure).head?
  caught : ∀ failure, .captured failure ∈ trace → .blockThrow failure ∈ trace
  threw : ∀ failure, .blockThrow failure ∈ trace →
    .captured failure ∈ trace ∨
      (failure.slot < call.participants ∧
        state.pc failure.slot = .capture failure.stage failure.block)
  disturbed : state.cancelled = true → state.disturbed

/-- The invariant of a dynamic chain call. -/
structure Inv (call : Call) (trace : List Event) (state : State) : Prop where
  slots : ∀ slot < call.participants, SlotInv call trace state slot
  stages : ∀ stage, ∃ fetched, StageInv call trace state stage fetched
  failures : FailuresOk call trace state
  outcome : ∀ outcome, state.outcome = some outcome →
    state.allLeft Pc.hasLeft call.participants = true ∧
      outcome = rethrowIfCaptured state.firstException

/-! ## Entering a stage -/

section Entry

variable {call : Call} {trace : List Event} {state : State} {stage slot : ℕ}

theorem enterStage_cases (call : Call) (stage : ℕ) :
    (stage < call.nStages ∧ 0 < stage ∧
        enterStage call stage = .scanPeers stage 1) ∨
      (stage < call.nStages ∧ stage = 0 ∧
        enterStage call stage = .loadCancelled stage) ∨
      (call.nStages ≤ stage ∧ enterStage call stage = .left stage) := by
  unfold enterStage
  by_cases hlast : stage < call.nStages
  · rcases Nat.eq_zero_or_pos stage with hzero | hpos
    · subst hzero
      simp [hlast]
    · simp [hlast, hpos]
  · simp [hlast, Nat.not_lt.1 hlast]

@[simp]
theorem stage_enterStage : (enterStage call stage).stage = stage := by
  obtain ⟨-, -, h⟩ | ⟨-, -, h⟩ | ⟨-, h⟩ := enterStage_cases call stage <;>
    simp [h, Pc.stage]

@[simp]
theorem passed_enterStage : (enterStage call stage).passed = stage := by
  obtain ⟨-, -, h⟩ | ⟨-, -, h⟩ | ⟨-, h⟩ := enterStage_cases call stage <;>
    simp [h, Pc.passed, Pc.stage]

theorem pcOk_enterStage (hstage : stage ≤ call.nStages) :
    PcOk call trace state slot (enterStage call stage) := by
  have htwo := call.two_le
  obtain ⟨hlt, hpos, h⟩ | ⟨hlt, rfl, h⟩ | ⟨hge, h⟩ :=
    enterStage_cases call stage
  · rw [h]
    refine ⟨hlt, hpos, le_rfl, by omega, fun earlier hlow hless => ?_⟩
    omega
  · rw [h]
    exact ⟨hlt, fun hpos => absurd hpos (by omega)⟩
  · rw [h]
    exact .inl (by omega)

end Entry

/-! ## What a step leaves alone -/

section Monotone

variable {call : Call} {trace : List Event} {before after : State}
variable {stage slot : ℕ} {event : Option Event}

theorem StagesDone.mono (hdone : StagesDone call trace stage) :
    StagesDone call (trace ++ event.toList) stage := by
  intro earlier hearlier block hblock
  obtain ⟨slot, hslot, hended⟩ := hdone earlier hearlier block hblock
  exact ⟨slot, hslot, List.mem_append_left _ hended⟩

theorem Waited.mono (hgrows : Grows Pc.passed before after)
    (hwaited : Waited call before stage slot) :
    Waited call after stage slot :=
  fun hpos peer hpeer hne =>
    (hwaited hpos peer hpeer hne).trans (hgrows.done peer)

theorem PcOk.mono {pc : Pc} (hgrows : Grows Pc.passed before after)
    (hdone : after.done slot = before.done slot)
    (hok : PcOk call trace before slot pc) :
    PcOk call (trace ++ event.toList) after slot pc := by
  cases pc with
  | scanPeers stage step =>
      obtain ⟨hstage, hpos, hone, hstep, hearlier⟩ := hok
      refine ⟨hstage, hpos, hone, hstep, fun earlier hlow hless => ?_⟩
      exact (hearlier earlier hlow hless).trans (hgrows.done _)
  | loadCancelled stage => exact ⟨hok.1, hok.2.mono hgrows⟩
  | pollToken stage | loopHead stage | claim stage =>
      exact ⟨hok.1, hok.2.mono⟩
  | repollToken stage =>
      exact ⟨hok.1, hok.2.imp hgrows.cancelled hgrows.stopRequested⟩
  | storeCancelled stage => exact ⟨hok.1, hgrows.stopRequested hok.2⟩
  | stampFinal stage => exact ⟨hok.1, hgrows.cancelled hok.2⟩
  | inBlock stage block => exact ⟨hok.1, hok.2.1.mono, hok.2.2⟩
  | capture stage block =>
      exact ⟨hok.1, List.mem_append_left _ hok.2⟩
  | storeFailed stage => exact ⟨hok.1, hgrows.firstException hok.2⟩
  | stampStage stage => exact hok
  | left passed =>
      refine hok.imp id fun hearly => ?_
      exact ⟨hearly.1, hgrows.cancelled hearly.2.1,
        hdone.trans hearly.2.2⟩

/-- A slot that does not move keeps its part of the invariant. -/
theorem SlotInv.mono (hgrows : Grows Pc.passed before after)
    (hpc : after.pc slot = before.pc slot)
    (hdone : after.done slot = before.done slot)
    (hinv : SlotInv call trace before slot) :
    SlotInv call (trace ++ event.toList) after slot where
  pcOk := by
    rw [hpc]
    exact hinv.pcOk.mono hgrows hdone
  stamp_le := hinv.stamp_le.mono hgrows hpc hdone
  le_stamp := by
    rw [hpc, hdone]
    exact hinv.le_stamp

theorem mem_pastSlots {state : State} :
    slot ∈ pastSlots call state stage ↔
      slot < call.participants ∧ stage < (state.pc slot).passed := by
  simp [pastSlots]

theorem pastSlots_mono (hgrows : Grows Pc.passed before after) :
    pastSlots call before stage ⊆ pastSlots call after stage := by
  intro slot hslot
  rw [mem_pastSlots] at hslot ⊢
  exact ⟨hslot.1, hslot.2.trans_le (hgrows.passed slot)⟩

/-- A slot that is not past a stage leaves room in the counter. -/
theorem card_pastSlots_lt {state : State} (hslot : slot < call.participants)
    (hpassed : (state.pc slot).passed ≤ stage) :
    (pastSlots call state stage).card < call.participants := by
  have hsub : pastSlots call state stage ⊂ Finset.range call.participants := by
    refine Finset.ssubset_iff_of_subset (Finset.filter_subset _ _) |>.2
      ⟨slot, Finset.mem_range.2 hslot, fun hpast => ?_⟩
    have := (mem_pastSlots.1 hpast).2
    omega
  simpa using Finset.card_lt_card hsub

end Monotone

/-! ## The moving slot -/

section Moving

variable {call : Call} {trace : List Event} {before after : State}
variable {slot : ℕ} {pc : Pc} {event : Option Event}

/-- The moving slot without a stamp. -/
theorem SlotInv.quiet (hinv : SlotInv call trace before slot)
    (hmoves : Moves Pc.passed slot pc before after)
    (hdone : after.done slot = before.done slot)
    (hstays : (before.pc slot).hasLeft = false)
    (hstage : pc.stage = (before.pc slot).stage)
    (hok : PcOk call (trace ++ event.toList) after slot pc) :
    SlotInv call (trace ++ event.toList) after slot := by
  have hpc : after.pc slot = pc := by
    rw [hmoves.atPc, Function.update_self]
  refine ⟨by rwa [hpc], ?_, ?_⟩
  · left
    have hbound := hinv.stamp_le.of_running hstays
    rw [hpc, hdone]
    exact hbound.trans (Nat.add_le_add_left hmoves.forward _)
  · rw [hpc, hdone, hstage]
    exact hinv.le_stamp

end Moving

/-! ## The stage counters -/

section Stages

variable {call : Call} {trace : List Event} {before after : State}
variable {slot stage fetched : ℕ} {pc : Pc} {event : Option Event}

@[simp]
theorem startedBlocks_append_none {stage : ℕ} (trace : List Event) :
    startedBlocks stage (trace ++ (none : Option Event).toList) =
      startedBlocks stage trace := by
  simp

theorem startedBlocks_append (trace : List Event) (event : Option Event)
    (hevent : ∀ emitted ∈ event, emitted.starts stage = none) :
    startedBlocks stage (trace ++ event.toList) =
      startedBlocks stage trace := by
  cases event with
  | none => simp
  | some emitted =>
      simp [startedBlocks, hevent emitted rfl]

/-- A block that is not in the moving slot's hands stays settled. -/
theorem Settled.mono {block : ℕ} (hmoves : Moves Pc.passed slot pc before after)
    (hmover : before.pc slot = .inBlock stage block ∨
        before.pc slot = .capture stage block ∨
        before.pc slot = .storeFailed stage →
      Settled call (trace ++ event.toList) after stage block)
    (hsettled : Settled call trace before stage block) :
    Settled call (trace ++ event.toList) after stage block := by
  rcases hsettled with ⟨ender, hender, hended⟩ | ⟨holder, hholder, hholds⟩ |
      hcancelled
  · exact .inl ⟨ender, hender, List.mem_append_left _ hended⟩
  · by_cases hsame : holder = slot
    · rw [hsame] at hholds
      exact hmover hholds
    · refine .inr (.inl ⟨holder, hholder, ?_⟩)
      rwa [hmoves.atPc, Function.update_of_ne hsame]
  · exact .inr (.inr (hmoves.cancelled hcancelled))

/-- A step that claims nothing of a stage keeps the stage's invariant. -/
theorem StageInv.keep (hinv : StageInv call trace before stage fetched)
    (hmoves : Moves Pc.passed slot pc before after)
    (hcounter : after.own.counter stage = before.own.counter stage)
    (hevent : ∀ emitted ∈ event, emitted.starts stage = none)
    (hmover : ∀ block, before.pc slot = .inBlock stage block ∨
        before.pc slot = .capture stage block ∨
        before.pc slot = .storeFailed stage →
      Settled call (trace ++ event.toList) after stage block)
    (hpassed : after.cancelled = true ∨
      (stage < pc.passed → stage < (before.pc slot).passed)) :
    StageInv call (trace ++ event.toList) after stage fetched where
  counter := hcounter.trans hinv.counter
  fetched_le := hinv.fetched_le.trans
    (Nat.add_le_add_left
      (Finset.card_le_card (pastSlots_mono hmoves.grows)) _)
  started := by rw [startedBlocks_append _ _ hevent, hinv.started]
  settled block hblock :=
    (hinv.settled block hblock).mono hmoves (hmover block)
  exhausted := by
    intro hclear ⟨past, hpast⟩
    rcases hpassed with hcancelled | hpassed
    · simp [hclear] at hcancelled
    · have hbefore : before.cancelled = false := by
        by_contra hset
        simp [hmoves.cancelled (by simpa using hset)] at hclear
      refine hinv.exhausted hbefore ⟨past, ?_⟩
      rw [mem_pastSlots, hmoves.atPc] at hpast
      rw [mem_pastSlots]
      refine ⟨hpast.1, ?_⟩
      by_cases hsame : past = slot
      · subst hsame
        exact hpassed (by simpa using hpast.2)
      · simpa [hsame] using hpast.2

/-- A slot that gets past a stage is one more. -/
theorem card_pastSlots_succ (hmoves : Moves Pc.passed slot pc before after)
    (hslot : slot < call.participants)
    (hbefore : (before.pc slot).passed ≤ stage) (hafter : stage < pc.passed) :
    (pastSlots call before stage).card + 1 ≤
      (pastSlots call after stage).card := by
  have hsub : insert slot (pastSlots call before stage) ⊆
      pastSlots call after stage := by
    refine Finset.insert_subset ?_ (pastSlots_mono hmoves.grows)
    rw [mem_pastSlots, hmoves.atPc, Function.update_self]
    exact ⟨hslot, hafter⟩
  have hnew : slot ∉ pastSlots call before stage := by
    rw [mem_pastSlots]
    omega
  have hcard := Finset.card_le_card hsub
  rwa [Finset.card_insert_of_notMem hnew] at hcard

/-- A claim behind the last block takes its slot past the stage. -/
theorem StageInv.overshoot (hinv : StageInv call trace before stage fetched)
    (hmoves : Moves Pc.passed slot pc before after)
    (hslot : slot < call.participants)
    (hcounter : after.own.counter stage = word (before.own.counter stage + 1))
    (hbefore : (before.pc slot).passed = stage) (hafter : stage < pc.passed)
    (hall : call.blockCount ≤ fetched)
    (hmover : ∀ block, ¬ (before.pc slot = .inBlock stage block ∨
        before.pc slot = .capture stage block ∨
        before.pc slot = .storeFailed stage)) :
    StageInv call trace after stage (fetched + 1) := by
  have hmin : min (fetched + 1) call.blockCount =
      min fetched call.blockCount := by omega
  refine ⟨?_, ?_, by rw [hmin, hinv.started], ?_, fun _ _ => by omega⟩
  · rw [hcounter, hinv.counter, word, word, word, Nat.mod_add_mod]
  · have := card_pastSlots_succ hmoves hslot hbefore.le hafter
    have := hinv.fetched_le
    omega
  · intro block hblock
    rw [hmin] at hblock
    have hkept : Settled call (trace ++ (none : Option Event).toList) after
        stage block :=
      (hinv.settled block hblock).mono hmoves
        fun hholds => absurd hholds (hmover block)
    simpa using hkept

/-- A claim in front of the last block hands out the next id. -/
theorem StageInv.claimed (hinv : StageInv call trace before stage fetched)
    (hmoves : Moves Pc.passed slot (.inBlock stage fetched) before after)
    (hslot : slot < call.participants)
    (hcounter : after.own.counter stage = word (before.own.counter stage + 1))
    (hbefore : (before.pc slot).passed = stage)
    (hmore : fetched < call.blockCount)
    (hcancelled : after.cancelled = before.cancelled)
    (hmover : ∀ block, ¬ (before.pc slot = .inBlock stage block ∨
        before.pc slot = .capture stage block ∨
        before.pc slot = .storeFailed stage)) :
    StageInv call (trace ++ [.blockStart stage slot fetched]) after stage
      (fetched + 1) := by
  have hmin : min fetched call.blockCount = fetched := by omega
  have hminSucc : min (fetched + 1) call.blockCount = fetched + 1 := by omega
  refine ⟨?_, ?_, ?_, ?_, ?_⟩
  · rw [hcounter, hinv.counter, word, word, word, Nat.mod_add_mod]
  · omega
  · rw [hminSucc, List.range_succ, startedBlocks, List.filterMap_append]
    have hstarted := hinv.started
    rw [hmin, startedBlocks] at hstarted
    simp [hstarted, Event.starts]
  · intro block hblock
    rw [hminSucc] at hblock
    rcases Nat.lt_succ_iff_lt_or_eq.1 hblock with hless | rfl
    · have hkept : Settled call (trace ++
          (some (Event.blockStart stage slot fetched)).toList) after stage
          block :=
        (hinv.settled block (by omega)).mono hmoves
          fun hholds => absurd hholds (hmover block)
      exact hkept
    · refine .inr (.inl ⟨slot, hslot, .inl ?_⟩)
      rw [hmoves.atPc, Function.update_self]
  · intro hclear ⟨past, hpast⟩
    refine absurd (hinv.exhausted (hcancelled ▸ hclear) ⟨past, ?_⟩) (by omega)
    rw [mem_pastSlots, hmoves.atPc] at hpast
    rw [mem_pastSlots]
    by_cases hsame : past = slot
    · subst hsame
      simp [Pc.passed, Pc.stage] at hpast
    · simpa [hsame] using hpast

end Stages

end Citor.DynamicChain
