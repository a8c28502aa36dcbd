import Citor.Chain.StageRunner

/-!
# The invariant of the same-chunk chain

The invariant ties each slot's program counter to its own stamp, to the stamps
of its peers and to the events it has emitted.  A step moves one slot and only
lets stamps, progress and flags grow, so the other slots keep their part of
the invariant by monotonicity and only the moving slot is inspected.
-/

namespace Citor.Chain

open Citor.Interleaving
open Citor.DoneSlots
open Citor.SlotRunners

/-- Stages the slot has got through. -/
def Pc.passed : Pc → ℕ
  | .scanPeers stage _ | .waitProducer stage | .loadCancelled stage
  | .pollToken stage | .repollToken stage | .storeCancelled stage
  | .stampFinal stage | .inBody stage | .capture stage
  | .stampStage stage | .left stage => stage

/-- Stage boundaries the slot has found uncancelled after their barrier. -/
def Pc.cleared : Pc → ℕ
  | .pollToken stage | .inBody stage | .capture stage
  | .stampStage stage => stage + 1
  | .scanPeers stage _ | .waitProducer stage | .loadCancelled stage
  | .repollToken stage | .storeCancelled stage | .stampFinal stage
  | .left stage => stage

def Event.slot : Event → ℕ
  | .bodyStart _ slot | .bodyEnd _ slot | .bodyThrow _ slot => slot
  | .captured failure => failure.slot

/-- The failure an event hands to `firstException`. -/
def Event.failure : Event → Option Failure
  | .captured failure => some failure
  | _ => none

/-- What a slot emits for a stage it gets through. -/
def stageEvents (call : Call) (stage slot : ℕ) : List Event :=
  if call.runsBody stage slot then [.bodyStart stage slot, .bodyEnd stage slot]
  else []

/-- What a slot emits for its first `passed` stages. -/
def passedEvents (call : Call) (slot : ℕ) : ℕ → List Event
  | 0 => []
  | passed + 1 => passedEvents call slot passed ++ stageEvents call passed slot

/-- The events a slot may have emitted for the stage it stands in. -/
def CurrentEvents (call : Call) (slot : ℕ) : Pc → List Event → Prop
  | .inBody stage, events => events = [.bodyStart stage slot]
  | .capture stage, events =>
      events = [.bodyStart stage slot, .bodyThrow stage slot]
  | .stampStage stage, events => events = stageEvents call stage slot
  | .storeCancelled stage, events | .stampFinal stage, events
  | .left stage, events =>
      events = [] ∨ events = [.bodyStart stage slot, .bodyThrow stage slot,
        .captured ⟨stage, slot⟩]
  | .scanPeers _ _, events | .waitProducer _, events
  | .loadCancelled _, events | .pollToken _, events
  | .repollToken _, events => events = []

/-- What a slot may rely on once it has cleared the boundary in front of
`stage`: everybody is past the rendezvous, or slot 0 is past the serial
stage. -/
def BoundaryClear (call : Call) (state : State) (stage slot : ℕ) : Prop :=
  ((call.barrierBefore stage).isRendezvous = true →
      ∀ peer < call.participants, stage ≤ (state.pc peer).passed) ∧
    (call.barrierBefore stage = .producerSerial → slot ≠ 0 →
      stage + 1 ≤ (state.pc 0).passed)

/-- The stamps a slot has waited for in front of `stage`. -/
def Waited (call : Call) (state : State) (stage slot : ℕ) : Prop :=
  ((call.barrierBefore stage).isRendezvous = true →
      ∀ peer < call.participants, peer ≠ slot →
        call.epochs.epochBase + stage ≤ state.done peer) ∧
    (call.barrierBefore stage = .producerSerial → slot ≠ 0 →
      call.epochs.epochBase + (stage + 1) ≤ state.done 0)

/-- What a program counter alone says about the state. -/
def PcOk (call : Call) (state : State) (slot : ℕ) : Pc → Prop
  | .scanPeers stage step =>
      stage < call.nStages ∧ 1 ≤ step ∧ step < call.participants ∧
        (call.barrierBefore stage).isRendezvous = true ∧
        ∀ earlier, 1 ≤ earlier → earlier < step →
          call.epochs.epochBase + stage ≤
            state.done (scanPeer call.participants slot earlier)
  | .waitProducer stage =>
      stage < call.nStages ∧ call.barrierBefore stage = .producerSerial ∧
        slot ≠ 0
  | .loadCancelled stage => stage < call.nStages ∧ Waited call state stage slot
  | .pollToken stage => stage < call.nStages
  | .repollToken stage =>
      stage < call.nStages ∧
        (state.cancelled = true ∨ state.stopRequested = true)
  | .storeCancelled stage => stage < call.nStages ∧ state.disturbed
  | .stampFinal stage => stage < call.nStages ∧ state.cancelled = true
  | .inBody stage | .capture stage =>
      stage < call.nStages ∧ call.runsBody stage slot = true
  | .stampStage stage =>
      stage < call.nStages ∧ call.stampNeeded stage slot = true
  | .left passed =>
      passed = call.nStages ∨
        (passed < call.nStages ∧ state.cancelled = true ∧
          state.done slot = call.epochs.epochBase + call.nStages)

/-- The invariant as one slot sees it. -/
structure SlotInv (call : Call) (trace : List Event) (state : State)
    (slot : ℕ) : Prop where
  pcOk : PcOk call state slot (state.pc slot)
  stamp_le : StampLe Pc.passed Pc.hasLeft call.epochs.epochBase call.nStages
    state slot
  le_stamp : ∀ stage < (state.pc slot).passed,
    call.stampNeeded stage slot = true →
      call.epochs.epochBase + (stage + 1) ≤ state.done slot
  boundary : ∀ stage < (state.pc slot).cleared,
    BoundaryClear call state stage slot
  history : ∃ current, CurrentEvents call slot (state.pc slot) current ∧
    trace.filter (fun event => event.slot = slot) =
      passedEvents call slot (state.pc slot).passed ++ current

/-- The invariant of a chain call. -/
structure Inv (call : Call) (trace : List Event) (state : State) : Prop where
  slots : ∀ slot < call.participants, SlotInv call trace state slot
  disturbed : state.cancelled = true → state.disturbed
  captured : state.firstException = (trace.filterMap Event.failure).head?
  bounded : ∀ event ∈ trace, event.slot < call.participants
  outcome : ∀ outcome, state.outcome = some outcome →
    state.allLeft Pc.hasLeft call.participants = true ∧
      outcome = rethrowIfCaptured state.firstException

/-! ## Entering a stage -/

section Entry

variable (call : Call) (stage slot : ℕ)

theorem enterStage_cases :
    (stage < call.nStages ∧ (call.barrierBefore stage).isRendezvous = true ∧
        enterStage call stage slot = .scanPeers stage 1) ∨
      (stage < call.nStages ∧ call.barrierBefore stage = .producerSerial ∧
        slot ≠ 0 ∧ enterStage call stage slot = .waitProducer stage) ∨
      (stage < call.nStages ∧
        (call.barrierBefore stage).isRendezvous = false ∧
        (call.barrierBefore stage = .producerSerial → slot = 0) ∧
        enterStage call stage slot = .loadCancelled stage) ∨
      (call.nStages ≤ stage ∧ enterStage call stage slot = .left stage) := by
  unfold enterStage
  by_cases hlast : stage < call.nStages
  · by_cases hrendezvous : (call.barrierBefore stage).isRendezvous = true
    · simp [hlast, hrendezvous]
    · by_cases hserial : call.barrierBefore stage = .producerSerial ∧ slot ≠ 0
      · simp [hlast, hserial, BarrierKind.isRendezvous]
      · simp only [hlast, hrendezvous, hserial, if_true, if_false]
        simp only [Bool.not_eq_true] at hrendezvous
        grind
  · simp only [hlast, if_false]
    grind

@[simp]
theorem passed_enterStage : (enterStage call stage slot).passed = stage := by
  obtain ⟨-, -, h⟩ | ⟨-, -, -, h⟩ | ⟨-, -, -, h⟩ | ⟨-, h⟩ :=
    enterStage_cases call stage slot <;> simp [h, Pc.passed]

@[simp]
theorem cleared_enterStage : (enterStage call stage slot).cleared = stage := by
  obtain ⟨-, -, h⟩ | ⟨-, -, -, h⟩ | ⟨-, -, -, h⟩ | ⟨-, h⟩ :=
    enterStage_cases call stage slot <;> simp [h, Pc.cleared]

theorem currentEvents_enterStage :
    CurrentEvents call slot (enterStage call stage slot) [] := by
  obtain ⟨-, -, h⟩ | ⟨-, -, -, h⟩ | ⟨-, -, -, h⟩ | ⟨-, h⟩ :=
    enterStage_cases call stage slot <;> simp [h, CurrentEvents]

variable {call stage slot}

theorem pcOk_enterStage {state : State} (hstage : stage ≤ call.nStages) :
    PcOk call state slot (enterStage call stage slot) := by
  obtain ⟨hlt, hrendezvous, h⟩ | ⟨hlt, hserial, hslot, h⟩ |
      ⟨hlt, hrendezvous, hserial, h⟩ | ⟨hge, h⟩ :=
    enterStage_cases call stage slot
  · rw [h]
    have := call.two_le
    refine ⟨hlt, le_rfl, by omega, hrendezvous, ?_⟩
    intro earlier hone hless
    omega
  · rw [h]
    exact ⟨hlt, hserial, hslot⟩
  · rw [h]
    refine ⟨hlt, ?_, ?_⟩
    · simp [hrendezvous]
    · intro hbefore hslot
      exact absurd (hserial hbefore) hslot
  · rw [h]
    exact .inl (by omega)

end Entry

/-! ## What a step leaves alone -/

section Monotone

variable {call : Call} {before after : State} {stage slot : ℕ}

theorem BoundaryClear.mono (hgrows : Grows Pc.passed before after)
    (hclear : BoundaryClear call before stage slot) :
    BoundaryClear call after stage slot := by
  refine ⟨fun hrendezvous peer hpeer => ?_, fun hserial hslot => ?_⟩
  · exact (hclear.1 hrendezvous peer hpeer).trans (hgrows.passed peer)
  · exact (hclear.2 hserial hslot).trans (hgrows.passed 0)

theorem Waited.mono (hgrows : Grows Pc.passed before after)
    (hwaited : Waited call before stage slot) :
    Waited call after stage slot := by
  refine ⟨fun hrendezvous peer hpeer hne => ?_, fun hserial hslot => ?_⟩
  · exact (hwaited.1 hrendezvous peer hpeer hne).trans (hgrows.done peer)
  · exact (hwaited.2 hserial hslot).trans (hgrows.done 0)

theorem PcOk.mono {pc : Pc} (hgrows : Grows Pc.passed before after)
    (hdone : after.done slot = before.done slot)
    (hok : PcOk call before slot pc) : PcOk call after slot pc := by
  cases pc with
  | scanPeers stage step =>
      obtain ⟨hstage, hone, hstep, hrendezvous, hearlier⟩ := hok
      refine ⟨hstage, hone, hstep, hrendezvous, fun earlier hlow hless => ?_⟩
      exact (hearlier earlier hlow hless).trans (hgrows.done _)
  | waitProducer stage => exact hok
  | loadCancelled stage => exact ⟨hok.1, hok.2.mono hgrows⟩
  | pollToken stage => exact hok
  | repollToken stage =>
      exact ⟨hok.1, hok.2.imp hgrows.cancelled hgrows.stopRequested⟩
  | storeCancelled stage => exact ⟨hok.1, hgrows.disturbed hok.2⟩
  | stampFinal stage => exact ⟨hok.1, hgrows.cancelled hok.2⟩
  | inBody stage => exact hok
  | capture stage => exact hok
  | stampStage stage => exact hok
  | left passed =>
      refine hok.imp id fun hearly => ?_
      exact ⟨hearly.1, hgrows.cancelled hearly.2.1, hdone.trans hearly.2.2⟩

/-- A slot that does not move keeps its part of the invariant. -/
theorem SlotInv.mono {trace : List Event} {event : Option Event}
    (hgrows : Grows Pc.passed before after)
    (hpc : after.pc slot = before.pc slot)
    (hdone : after.done slot = before.done slot)
    (hevent : ∀ emitted ∈ event, emitted.slot ≠ slot)
    (hinv : SlotInv call trace before slot) :
    SlotInv call (trace ++ event.toList) after slot where
  pcOk := by
    rw [hpc]
    exact hinv.pcOk.mono hgrows hdone
  stamp_le := hinv.stamp_le.mono hgrows hpc hdone
  le_stamp := by
    rw [hpc, hdone]
    exact hinv.le_stamp
  boundary := by
    rw [hpc]
    exact fun stage hstage => (hinv.boundary stage hstage).mono hgrows
  history := by
    obtain ⟨current, hcurrent, hfilter⟩ := hinv.history
    refine ⟨current, by rwa [hpc], ?_⟩
    rw [hpc, List.filter_append, hfilter]
    cases event with
    | none => simp
    | some emitted => simp [hevent emitted rfl]

end Monotone

/-! ## The moving slot -/

section Moving

variable {call : Call} {trace : List Event} {before after : State}
variable {slot : ℕ} {event : Option Event}

/-- A move inside one stage. -/
theorem SlotInv.within {pc : Pc} (hinv : SlotInv call trace before slot)
    (hgrows : Grows Pc.passed before after) (hpc : after.pc slot = pc)
    (hdone : after.done slot = before.done slot)
    (hstays : (before.pc slot).hasLeft = false)
    (hpassed : pc.passed = (before.pc slot).passed)
    (hok : PcOk call after slot pc)
    (hcleared : ∀ stage < pc.cleared, (before.pc slot).cleared ≤ stage →
      BoundaryClear call after stage slot)
    (hevent : ∀ emitted ∈ event, emitted.slot = slot)
    (hcurrent : ∀ current, CurrentEvents call slot (before.pc slot) current →
      CurrentEvents call slot pc (current ++ event.toList)) :
    SlotInv call (trace ++ event.toList) after slot where
  pcOk := by rwa [hpc]
  stamp_le := by
    left
    rw [hpc, hdone, hpassed]
    exact hinv.stamp_le.of_running hstays
  le_stamp := by
    rw [hpc, hdone, hpassed]
    exact hinv.le_stamp
  boundary := by
    rw [hpc]
    intro stage hstage
    rcases lt_or_ge stage (before.pc slot).cleared with hold | hnew
    · exact (hinv.boundary stage hold).mono hgrows
    · exact hcleared stage hstage hnew
  history := by
    obtain ⟨current, hholds, hfilter⟩ := hinv.history
    refine ⟨current ++ event.toList, by rw [hpc]; exact hcurrent _ hholds, ?_⟩
    rw [hpc, hpassed, List.filter_append, hfilter, List.append_assoc]
    cases event with
    | none => simp
    | some emitted => simp [hevent emitted rfl]

/-- A move from one stage to the next. -/
theorem SlotInv.across {stage : ℕ} (hinv : SlotInv call trace before slot)
    (hgrows : Grows Pc.passed before after)
    (hpc : after.pc slot = enterStage call (stage + 1) slot)
    (hpassed : (before.pc slot).passed = stage)
    (hstage : stage < call.nStages)
    (hcleared : (before.pc slot).cleared = stage + 1)
    (hdone_le : after.done slot ≤ call.epochs.epochBase + (stage + 1))
    (hle_done : call.stampNeeded stage slot = true →
      call.epochs.epochBase + (stage + 1) ≤ after.done slot)
    (hevent : ∀ emitted ∈ event, emitted.slot = slot)
    (hcurrent : ∀ current, CurrentEvents call slot (before.pc slot) current →
      current ++ event.toList = stageEvents call stage slot) :
    SlotInv call (trace ++ event.toList) after slot where
  pcOk := by
    rw [hpc]
    exact pcOk_enterStage hstage
  stamp_le := by
    left
    rw [hpc, passed_enterStage]
    exact hdone_le
  le_stamp := by
    rw [hpc, passed_enterStage]
    intro earlier hearlier hneeded
    rcases Nat.lt_succ_iff_lt_or_eq.mp hearlier with hless | rfl
    · have := hinv.le_stamp earlier (by omega) hneeded
      exact this.trans (hgrows.done slot)
    · exact hle_done hneeded
  boundary := by
    rw [hpc, cleared_enterStage]
    intro earlier hearlier
    exact (hinv.boundary earlier (by omega)).mono hgrows
  history := by
    obtain ⟨current, hholds, hfilter⟩ := hinv.history
    refine ⟨[], by rw [hpc]; exact currentEvents_enterStage call _ slot, ?_⟩
    rw [hpc, passed_enterStage, List.append_nil, passedEvents,
      ← hcurrent current hholds, ← List.append_assoc, ← hpassed, ← hfilter,
      List.filter_append]
    cases event with
    | none => simp
    | some emitted => simp [hevent emitted rfl]

/-- What every step of a slot leaves alone. -/
structure SlotFrame (slot : ℕ) (before after : State)
    (event : Option Event) : Prop where
  pc : ∀ other, other ≠ slot → after.pc other = before.pc other
  done : ∀ other, other ≠ slot → after.done other = before.done other
  stopRequested : after.stopRequested = before.stopRequested
  outcome : after.outcome = before.outcome
  event : ∀ emitted ∈ event, emitted.slot = slot

theorem stepSlot_frame (hstep : stepSlot call before slot = some (after, event)) :
    SlotFrame slot before after event := by
  cases hpc : before.pc slot <;> simp only [stepSlot, hpc] at hstep
  all_goals
    repeat' split at hstep
  all_goals
    first
      | (simp only [reduceCtorEq] at hstep)
      | (simp only [Option.some.injEq, Prod.mk.injEq] at hstep
         obtain ⟨rfl, rfl⟩ := hstep
         constructor <;>
           simp +contextual [State.setPc, State.stamp, Event.slot])

theorem SlotFrame.grows (hframe : SlotFrame slot before after event)
    (hpassed : (before.pc slot).passed ≤ (after.pc slot).passed)
    (hdone : before.done slot ≤ after.done slot)
    (hcancelled : before.cancelled = true → after.cancelled = true)
    (hfirst : before.firstException ≠ none → after.firstException ≠ none) :
    Grows Pc.passed before after where
  passed other := by
    by_cases hother : other = slot
    · rwa [hother]
    · rw [hframe.pc other hother]
  done other := by
    by_cases hother : other = slot
    · rwa [hother]
    · rw [hframe.done other hother]
  cancelled := hcancelled
  stopRequested := by
    rw [hframe.stopRequested]
    exact id
  firstException := hfirst

/-- At a clear flag the awaited stamps are stamps of finished stages. -/
theorem Inv.boundaryClear (hinv : Inv call trace before) {stage : ℕ}
    (hstage : stage ≤ (before.pc slot).passed)
    (hclear : before.cancelled = false)
    (hwaited : Waited call before stage slot) :
    BoundaryClear call before stage slot := by
  have hstamp : ∀ peer < call.participants,
      before.done peer ≤ call.epochs.epochBase + (before.pc peer).passed := by
    intro peer hpeer
    exact (hinv.slots peer hpeer).stamp_le.of_clear hclear
  have := call.two_le
  refine ⟨fun hrendezvous peer hpeer => ?_, fun hserial hne => ?_⟩
  · by_cases hsame : peer = slot
    · rwa [hsame]
    · have := hwaited.1 hrendezvous peer hpeer hsame
      have := hstamp peer hpeer
      omega
  · have := hwaited.2 hserial hne
    have := hstamp 0 (by omega)
    omega

/-- A move within a stage that leaves stamps and flags alone. -/
theorem SlotInv.setPc {pc : Pc} (hinv : SlotInv call trace before slot)
    (hstays : (before.pc slot).hasLeft = false)
    (hpassed : pc.passed = (before.pc slot).passed)
    (hok : PcOk call before slot pc)
    (hcleared : ∀ stage < pc.cleared, (before.pc slot).cleared ≤ stage →
      BoundaryClear call before stage slot)
    (hevent : ∀ emitted ∈ event, emitted.slot = slot)
    (hcurrent : ∀ current, CurrentEvents call slot (before.pc slot) current →
      CurrentEvents call slot pc (current ++ event.toList)) :
    Grows Pc.passed before (before.setPc slot pc) ∧
      SlotInv call (trace ++ event.toList) (before.setPc slot pc) slot := by
  have hgrows : Grows Pc.passed before (before.setPc slot pc) := by
    refine ⟨fun other => ?_, fun _ => le_rfl, id, id, id⟩
    by_cases hother : other = slot
    · simp [State.setPc, hother, hpassed]
    · simp [State.setPc, hother]
  refine ⟨hgrows, hinv.within hgrows (by simp [State.setPc]) rfl hstays hpassed
    (hok.mono hgrows rfl) ?_ hevent hcurrent⟩
  exact fun stage hlow hhigh => (hcleared stage hlow hhigh).mono hgrows

/-- A move within a stage that clears no boundary. -/
theorem SlotInv.quiet {pc : Pc} (hinv : SlotInv call trace before slot)
    (hstays : (before.pc slot).hasLeft = false)
    (hpassed : pc.passed = (before.pc slot).passed)
    (hcleared : pc.cleared ≤ (before.pc slot).cleared)
    (hok : PcOk call before slot pc)
    (hevent : ∀ emitted ∈ event, emitted.slot = slot)
    (hcurrent : ∀ current, CurrentEvents call slot (before.pc slot) current →
      CurrentEvents call slot pc (current ++ event.toList)) :
    Grows Pc.passed before (before.setPc slot pc) ∧
      SlotInv call (trace ++ event.toList) (before.setPc slot pc) slot :=
  hinv.setPc hstays hpassed hok
    (fun _ hlow hhigh => absurd (hlow.trans_le hcleared) (by omega))
    hevent hcurrent

/-- Getting past a stage with no stamp to publish, or stopping in front of
the stamp. -/
theorem SlotInv.afterBody {stage : ℕ} (hinv : SlotInv call trace before slot)
    (hstays : (before.pc slot).hasLeft = false)
    (hpassed : (before.pc slot).passed = stage)
    (hcleared : (before.pc slot).cleared = stage + 1)
    (hstage : stage < call.nStages)
    (hevent : ∀ emitted ∈ event, emitted.slot = slot)
    (hcurrent : ∀ current, CurrentEvents call slot (before.pc slot) current →
      current ++ event.toList = stageEvents call stage slot) :
    Grows Pc.passed before (before.setPc slot (afterBody call stage slot)) ∧
      SlotInv call (trace ++ event.toList)
        (before.setPc slot (afterBody call stage slot)) slot := by
  by_cases hstamp : call.stampNeeded stage slot = true
  · have hnext : Chain.afterBody call stage slot = .stampStage stage := by
      simp [Chain.afterBody, hstamp]
    rw [hnext]
    exact hinv.quiet hstays hpassed.symm (by rw [hcleared]; exact le_rfl)
      ⟨hstage, hstamp⟩ hevent hcurrent
  · have hnext : Chain.afterBody call stage slot =
        enterStage call (stage + 1) slot := by
      simp [Chain.afterBody, hstamp]
    rw [hnext]
    have hgrows : Grows Pc.passed before
        (before.setPc slot (enterStage call (stage + 1) slot)) := by
      refine ⟨fun other => ?_, fun _ => le_rfl, id, id, id⟩
      by_cases hother : other = slot
      · simp [State.setPc, hother, hpassed]
      · simp [State.setPc, hother]
    have hdone := hinv.stamp_le.of_running hstays
    refine ⟨hgrows, hinv.across hgrows (by simp [State.setPc]) hpassed hstage
      hcleared ?_ ?_ hevent hcurrent⟩
    · simp only [State.setPc]
      omega
    · exact fun hneeded => absurd hneeded hstamp

theorem pollToken_slotInv {stage : ℕ} (hinv : SlotInv call trace before slot)
    (hpc : before.pc slot = .pollToken stage)
    (hstep : stepSlot call before slot = some (after, event)) :
    Grows Pc.passed before after ∧
      SlotInv call (trace ++ event.toList) after slot := by
  have hok : stage < call.nStages := by
    simpa [hpc, PcOk] using hinv.pcOk
  simp only [stepSlot, hpc] at hstep
  split at hstep
  next hstop =>
    obtain ⟨rfl, rfl⟩ := by simpa using hstep
    refine hinv.quiet (by simp [hpc, Pc.hasLeft]) (by simp [hpc, Pc.passed])
      (by simp [hpc, Pc.cleared]) ⟨hok, .inr hstop⟩ (by simp) ?_
    · simp [hpc, CurrentEvents]
  next =>
    split at hstep
    next hruns =>
      obtain ⟨rfl, rfl⟩ := by simpa using hstep
      refine hinv.quiet (by simp [hpc, Pc.hasLeft]) (by simp [hpc, Pc.passed])
        (by simp [hpc, Pc.cleared]) ⟨hok, hruns⟩ (by simp [Event.slot]) ?_
      · simp [hpc, CurrentEvents]
    next hskips =>
      obtain ⟨rfl, rfl⟩ := by simpa using hstep
      refine hinv.afterBody (by simp [hpc, Pc.hasLeft])
        (by simp [hpc, Pc.passed]) (by simp [hpc, Pc.cleared]) hok (by simp) ?_
      simp [hpc, CurrentEvents, stageEvents, hskips]

theorem inBody_slotInv {stage : ℕ} (hinv : SlotInv call trace before slot)
    (hpc : before.pc slot = .inBody stage)
    (hstep : stepSlot call before slot = some (after, event)) :
    Grows Pc.passed before after ∧
      SlotInv call (trace ++ event.toList) after slot := by
  obtain ⟨hstage, hruns⟩ : stage < call.nStages ∧
      call.runsBody stage slot = true := by
    simpa [hpc, PcOk] using hinv.pcOk
  simp only [stepSlot, hpc] at hstep
  split at hstep
  next =>
    obtain ⟨rfl, rfl⟩ := by simpa using hstep
    refine hinv.quiet (by simp [hpc, Pc.hasLeft]) (by simp [hpc, Pc.passed])
      (by simp [hpc, Pc.cleared]) ⟨hstage, hruns⟩ (by simp [Event.slot]) ?_
    · simp [hpc, CurrentEvents]
  next =>
    obtain ⟨rfl, rfl⟩ := by simpa using hstep
    refine hinv.afterBody (by simp [hpc, Pc.hasLeft])
      (by simp [hpc, Pc.passed]) (by simp [hpc, Pc.cleared]) hstage
      (by simp [Event.slot]) ?_
    simp [hpc, CurrentEvents, stageEvents, hruns]

theorem stampStage_slotInv {stage : ℕ} (hinv : SlotInv call trace before slot)
    (hpc : before.pc slot = .stampStage stage)
    (hstep : stepSlot call before slot = some (after, event)) :
    Grows Pc.passed before after ∧
      SlotInv call (trace ++ event.toList) after slot := by
  have hok : stage < call.nStages := by
    have hok := hinv.pcOk
    rw [hpc] at hok
    exact hok.1
  have hframe := stepSlot_frame hstep
  have hdone := hinv.stamp_le.of_running (by simp [hpc, Pc.hasLeft])
  simp only [hpc, Pc.passed] at hdone
  simp only [stepSlot, hpc, Option.some.injEq, Prod.mk.injEq] at hstep
  obtain ⟨rfl, rfl⟩ := hstep
  have hgrows := hframe.grows
    (by
      simp only [State.setPc, hpc, Function.update_self, passed_enterStage]
      exact Nat.le_succ stage)
    (by simp [State.setPc, State.stamp]; omega) id id
  refine ⟨hgrows, hinv.across hgrows (by simp [State.setPc])
    (by simp [hpc, Pc.passed]) hok (by simp [hpc, Pc.cleared])
    ?_ ?_ (by simp) ?_⟩
  · simp [State.setPc, State.stamp]
  · simp [State.setPc, State.stamp]
  · simp [hpc, CurrentEvents]

theorem stampFinal_slotInv {stage : ℕ} (hinv : SlotInv call trace before slot)
    (hpc : before.pc slot = .stampFinal stage)
    (hstep : stepSlot call before slot = some (after, event)) :
    Grows Pc.passed before after ∧
      SlotInv call (trace ++ event.toList) after slot := by
  obtain ⟨hstage, hcancelled⟩ : stage < call.nStages ∧
      before.cancelled = true := by
    simpa [hpc, PcOk] using hinv.pcOk
  have hframe := stepSlot_frame hstep
  have hdone := hinv.stamp_le.of_running (by simp [hpc, Pc.hasLeft])
  simp only [hpc, Pc.passed] at hdone
  simp only [stepSlot, hpc, Option.some.injEq, Prod.mk.injEq] at hstep
  obtain ⟨rfl, rfl⟩ := hstep
  have hgrows := hframe.grows
    (by simp [State.setPc, hpc, Pc.passed])
    (by simp [State.setPc, State.stamp]; omega) id id
  refine ⟨hgrows, ?_⟩
  constructor
  · simp [State.setPc, State.stamp, PcOk, hstage, hcancelled]
  · exact .inr ⟨hcancelled, by simp [State.setPc, Pc.hasLeft],
      by simp [State.setPc, State.stamp]⟩
  · intro earlier hearlier hneeded
    have hold := hinv.le_stamp earlier (by simpa [hpc, State.setPc, Pc.passed] using hearlier)
      hneeded
    exact hold.trans (hgrows.done slot)
  · intro earlier hearlier
    refine (hinv.boundary earlier ?_).mono hgrows
    simpa [hpc, State.setPc, Pc.cleared] using hearlier
  · obtain ⟨current, hcurrent, hfilter⟩ := hinv.history
    refine ⟨current, ?_, ?_⟩
    · simpa [hpc, State.setPc, CurrentEvents] using hcurrent
    · simpa [hpc, State.setPc, Pc.passed] using hfilter

theorem scanPeers_slotInv {stage step : ℕ} (hslot : slot < call.participants)
    (hinv : SlotInv call trace before slot)
    (hpc : before.pc slot = .scanPeers stage step)
    (hstep : stepSlot call before slot = some (after, event)) :
    Grows Pc.passed before after ∧
      SlotInv call (trace ++ event.toList) after slot := by
  have hok := hinv.pcOk
  rw [hpc] at hok
  obtain ⟨hstage, hone, hstepLt, hrendezvous, hearlier⟩ := hok
  simp only [stepSlot, hpc] at hstep
  split at hstep
  next => simp at hstep
  next hstamped =>
    -- the peer just read joins the ones read before
    have hread : ∀ earlier, 1 ≤ earlier → earlier < step + 1 →
        call.epochs.epochBase + stage ≤
          before.done (scanPeer call.participants slot earlier) := by
      intro earlier hlow hless
      rcases Nat.lt_succ_iff_lt_or_eq.mp hless with hold | rfl
      · exact hearlier earlier hlow hold
      · omega
    split at hstep
    next hmore =>
      obtain ⟨rfl, rfl⟩ := by simpa using hstep
      refine hinv.quiet (by simp [hpc, Pc.hasLeft]) (by simp [hpc, Pc.passed])
        (by simp [hpc, Pc.cleared]) ⟨hstage, by omega, hmore, hrendezvous, hread⟩ (by simp) ?_
      · simp [hpc, CurrentEvents]
    next hall =>
      obtain ⟨rfl, rfl⟩ := by simpa using hstep
      refine hinv.quiet (by simp [hpc, Pc.hasLeft]) (by simp [hpc, Pc.passed])
        (by simp [hpc, Pc.cleared]) ⟨hstage, ?_, ?_⟩ (by simp) ?_
      · intro _ peer hpeer hne
        obtain ⟨place, hlow, hless, rfl⟩ := exists_scanPeer_eq hslot hpeer hne
        exact hread place hlow (by omega)
      · intro hserial
        simp [hserial, BarrierKind.isRendezvous] at hrendezvous
      · simp [hpc, CurrentEvents]

theorem waitProducer_slotInv {stage : ℕ} (hinv : SlotInv call trace before slot)
    (hpc : before.pc slot = .waitProducer stage)
    (hstep : stepSlot call before slot = some (after, event)) :
    Grows Pc.passed before after ∧
      SlotInv call (trace ++ event.toList) after slot := by
  have hok := hinv.pcOk
  rw [hpc] at hok
  obtain ⟨hstage, hserial, hne⟩ := hok
  simp only [stepSlot, hpc] at hstep
  split at hstep
  next => simp at hstep
  next hstamped =>
    obtain ⟨rfl, rfl⟩ := by simpa using hstep
    refine hinv.quiet (by simp [hpc, Pc.hasLeft]) (by simp [hpc, Pc.passed])
      (by simp [hpc, Pc.cleared]) ⟨hstage, ?_, ?_⟩ (by simp) ?_
    · simp [hserial, BarrierKind.isRendezvous]
    · intro _ _
      omega
    · simp [hpc, CurrentEvents]

theorem loadCancelled_slotInv {stage : ℕ} (hinv : Inv call trace before)
    (hslot : slot < call.participants)
    (hpc : before.pc slot = .loadCancelled stage)
    (hstep : stepSlot call before slot = some (after, event)) :
    Grows Pc.passed before after ∧
      SlotInv call (trace ++ event.toList) after slot := by
  have hslotInv := hinv.slots slot hslot
  have hok := hslotInv.pcOk
  rw [hpc] at hok
  obtain ⟨hstage, hwaited⟩ := hok
  simp only [stepSlot, hpc] at hstep
  split at hstep
  next hcancelled =>
    obtain ⟨rfl, rfl⟩ := by simpa using hstep
    refine hslotInv.quiet (by simp [hpc, Pc.hasLeft])
      (by simp [hpc, Pc.passed]) (by simp [hpc, Pc.cleared])
      ⟨hstage, .inl hcancelled⟩ (by simp) ?_
    · simp [hpc, CurrentEvents]
  next hclear =>
    obtain ⟨rfl, rfl⟩ := by simpa using hstep
    refine hslotInv.setPc (by simp [hpc, Pc.hasLeft])
      (by simp [hpc, Pc.passed]) hstage ?_ (by simp) ?_
    · intro earlier hlow hhigh
      simp only [hpc, Pc.cleared] at hlow hhigh
      obtain rfl : earlier = stage := by omega
      exact hinv.boundaryClear (by simp [hpc, Pc.passed]) (by simpa using hclear)
        hwaited
    · simp [hpc, CurrentEvents]

theorem repollToken_slotInv {stage : ℕ} (hinv : SlotInv call trace before slot)
    (hpc : before.pc slot = .repollToken stage)
    (hstep : stepSlot call before slot = some (after, event)) :
    Grows Pc.passed before after ∧
      SlotInv call (trace ++ event.toList) after slot := by
  have hok := hinv.pcOk
  rw [hpc] at hok
  obtain ⟨hstage, hcause⟩ := hok
  simp only [stepSlot, hpc] at hstep
  split at hstep
  next hstop =>
    obtain ⟨rfl, rfl⟩ := by simpa using hstep
    refine hinv.quiet (by simp [hpc, Pc.hasLeft]) (by simp [hpc, Pc.passed])
      (by simp [hpc, Pc.cleared]) ⟨hstage, .inl hstop⟩ (by simp) ?_
    · simp [hpc, CurrentEvents]
  next hquiet =>
    obtain ⟨rfl, rfl⟩ := by simpa using hstep
    refine hinv.quiet (by simp [hpc, Pc.hasLeft]) (by simp [hpc, Pc.passed])
      (by simp [hpc, Pc.cleared]) ⟨hstage, by simpa [hquiet] using hcause⟩ (by simp) ?_
    · simp [hpc, CurrentEvents]

theorem storeCancelled_slotInv {stage : ℕ}
    (hinv : SlotInv call trace before slot)
    (hpc : before.pc slot = .storeCancelled stage)
    (hstep : stepSlot call before slot = some (after, event)) :
    Grows Pc.passed before after ∧
      SlotInv call (trace ++ event.toList) after slot := by
  have hok := hinv.pcOk
  rw [hpc] at hok
  have hframe := stepSlot_frame hstep
  simp only [stepSlot, hpc, Option.some.injEq, Prod.mk.injEq] at hstep
  obtain ⟨rfl, rfl⟩ := hstep
  have hgrows := hframe.grows (by simp [State.setPc, hpc, Pc.passed]) le_rfl
    (by simp [State.setPc]) id
  refine ⟨hgrows, hinv.within hgrows
    (show _ = Pc.stampFinal stage by simp [State.setPc]) rfl (by simp [hpc, Pc.hasLeft])
    (by simp [hpc, Pc.passed]) ⟨hok.1, rfl⟩ ?_ (by simp) ?_⟩
  · intro earlier hlow hhigh
    simp only [hpc, Pc.cleared] at hlow hhigh
    omega
  · simp [hpc, CurrentEvents]

theorem capture_slotInv {stage : ℕ} (hinv : SlotInv call trace before slot)
    (hpc : before.pc slot = .capture stage)
    (hstep : stepSlot call before slot = some (after, event)) :
    Grows Pc.passed before after ∧
      SlotInv call (trace ++ event.toList) after slot := by
  have hok := hinv.pcOk
  rw [hpc] at hok
  have hframe := stepSlot_frame hstep
  simp only [stepSlot, hpc, Option.some.injEq, Prod.mk.injEq] at hstep
  obtain ⟨rfl, rfl⟩ := hstep
  have hgrows := hframe.grows (by simp [State.setPc, hpc, Pc.passed]) le_rfl
    id (by simp [State.setPc])
  refine ⟨hgrows, hinv.within hgrows
    (show _ = Pc.storeCancelled stage by simp [State.setPc]) rfl (by simp [hpc, Pc.hasLeft])
    (by simp [hpc, Pc.passed]) ⟨hok.1, ?_⟩ ?_ (by simp [Event.slot]) ?_⟩
  · simp [State.disturbed, State.setPc]
  · intro earlier hlow hhigh
    simp only [hpc, Pc.cleared] at hlow hhigh
    omega
  · simp [hpc, CurrentEvents]

/-- The moving slot keeps its part of the invariant. -/
theorem stepSlot_slotInv (hinv : Inv call trace before)
    (hslot : slot < call.participants)
    (hstep : stepSlot call before slot = some (after, event)) :
    Grows Pc.passed before after ∧
      SlotInv call (trace ++ event.toList) after slot := by
  have hslotInv := hinv.slots slot hslot
  cases hpc : before.pc slot with
  | scanPeers stage step => exact scanPeers_slotInv hslot hslotInv hpc hstep
  | waitProducer stage => exact waitProducer_slotInv hslotInv hpc hstep
  | loadCancelled stage => exact loadCancelled_slotInv hinv hslot hpc hstep
  | pollToken stage => exact pollToken_slotInv hslotInv hpc hstep
  | repollToken stage => exact repollToken_slotInv hslotInv hpc hstep
  | storeCancelled stage => exact storeCancelled_slotInv hslotInv hpc hstep
  | stampFinal stage => exact stampFinal_slotInv hslotInv hpc hstep
  | inBody stage => exact inBody_slotInv hslotInv hpc hstep
  | capture stage => exact capture_slotInv hslotInv hpc hstep
  | stampStage stage => exact stampStage_slotInv hslotInv hpc hstep
  | left passed => simp [stepSlot, hpc] at hstep

/-! ## The whole state -/

/-- The first captured failure follows the events. -/
theorem stepSlot_captured
    (hcaptured : before.firstException =
      (trace.filterMap Event.failure).head?)
    (hstep : stepSlot call before slot = some (after, event)) :
    after.firstException =
      ((trace ++ event.toList).filterMap Event.failure).head? := by
  cases hpc : before.pc slot <;> simp only [stepSlot, hpc] at hstep
  case capture stage =>
    simp only [Option.some.injEq, Prod.mk.injEq] at hstep
    obtain ⟨rfl, rfl⟩ := hstep
    simp only [State.setPc, hcaptured]
    exact captureFirstException_head? Event.failure trace rfl
  all_goals
    repeat' split at hstep
  all_goals
    first
      | (simp only [reduceCtorEq] at hstep)
      | (simp only [Option.some.injEq, Prod.mk.injEq] at hstep
         obtain ⟨rfl, rfl⟩ := hstep
         simp [State.setPc, State.stamp, Event.failure, hcaptured])

theorem stepSlot_disturbed (hinv : Inv call trace before)
    (hslot : slot < call.participants)
    (hstep : stepSlot call before slot = some (after, event)) :
    after.cancelled = true → after.disturbed := by
  obtain ⟨hgrows, -⟩ := stepSlot_slotInv hinv hslot hstep
  intro hcancelled
  refine hgrows.disturbed ?_
  by_cases hold : before.cancelled = true
  · exact hinv.disturbed hold
  · -- only the store in front of an early exit sets the flag
    have hok := (hinv.slots slot hslot).pcOk
    cases hpc : before.pc slot <;> simp only [stepSlot, hpc] at hstep
    case storeCancelled stage =>
      rw [hpc] at hok
      exact hok.2
    all_goals
      repeat' split at hstep
    all_goals
      first
        | (simp only [reduceCtorEq] at hstep)
        | (simp only [Option.some.injEq, Prod.mk.injEq] at hstep
           obtain ⟨rfl, rfl⟩ := hstep
           exact absurd hcancelled (by simpa [State.setPc, State.stamp] using hold))

theorem hasLeft_of_stepSlot
    (hstep : stepSlot call before slot = some (after, event)) :
    (before.pc slot).hasLeft = false := by
  cases hpc : before.pc slot with
  | left passed => simp [stepSlot, hpc] at hstep
  | _ => rfl

theorem stepSlot_inv (hinv : Inv call trace before)
    (hslot : slot < call.participants)
    (hstep : stepSlot call before slot = some (after, event)) :
    Inv call (trace ++ event.toList) after := by
  have hframe := stepSlot_frame hstep
  obtain ⟨hgrows, hmoved⟩ := stepSlot_slotInv hinv hslot hstep
  constructor
  · intro other hother
    by_cases hsame : other = slot
    · rwa [hsame]
    · exact (hinv.slots other hother).mono hgrows (hframe.pc other hsame)
        (hframe.done other hsame)
        fun emitted hemitted => by
          rw [hframe.event emitted hemitted]
          exact Ne.symm hsame
  · exact stepSlot_disturbed hinv hslot hstep
  · exact stepSlot_captured hinv.captured hstep
  · intro emitted hemitted
    rcases List.mem_append.mp hemitted with hold | hnew
    · exact hinv.bounded emitted hold
    · rwa [hframe.event emitted (by simpa using hnew)]
  · intro outcome houtcome
    rw [hframe.outcome] at houtcome
    have hall := (hinv.outcome outcome houtcome).1
    simp [before.allLeft_of_running hslot (hasLeft_of_stepSlot hstep)] at hall

end Moving

/-- Every step of the machine keeps the invariant. -/
theorem inv_step {call : Call} {trace : List Event} {before after : State}
    {action : Action} {event : Option Event} (hinv : Inv call trace before)
    (hstep : (chain call).step before action = some (after, event)) :
    Inv call (trace ++ event.toList) after := by
  cases action with
  | slot slot =>
      by_cases hslot : slot < call.participants
      · exact stepSlot_inv hinv hslot (by simpa [chain, hslot] using hstep)
      · simp [chain, hslot] at hstep
  | join =>
      simp only [chain] at hstep
      split at hstep
      next hready =>
        obtain ⟨rfl, rfl⟩ := by simpa using hstep
        have hgrows : Grows Pc.passed before { before with
            outcome := some (rethrowIfCaptured before.firstException) } :=
          ⟨fun _ => le_rfl, fun _ => le_rfl, id, id, id⟩
        refine ⟨fun slot hslot => (hinv.slots slot hslot).mono hgrows rfl rfl
          (by simp), fun hcancelled => hgrows.disturbed (hinv.disturbed hcancelled),
          by simpa using hinv.captured, by simpa using hinv.bounded, ?_⟩
        intro outcome houtcome
        exact ⟨hready.2, by simpa using houtcome.symm⟩
      next => simp at hstep
  | requestStop =>
      obtain ⟨rfl, rfl⟩ := by simpa [chain] using hstep
      have hgrows : Grows Pc.passed before
          { before with stopRequested := true } :=
        ⟨fun _ => le_rfl, fun _ => le_rfl, id, fun _ => rfl, id⟩
      exact ⟨fun slot hslot => (hinv.slots slot hslot).mono hgrows rfl rfl
          (by simp), fun hcancelled => hgrows.disturbed (hinv.disturbed hcancelled),
          by simpa using hinv.captured, by simpa using hinv.bounded, hinv.outcome⟩

theorem inv_start (call : Call) : Inv call [] (start call) := by
  refine ⟨fun slot hslot => ?_, by simp [start], by simp [start], by simp,
    by simp [start]⟩
  refine ⟨pcOk_enterStage (Nat.zero_le _), .inl ?_, ?_, ?_, [], ?_, ?_⟩
  · simpa [start] using call.epochs.done_le slot
  · simp [start]
  · simp [start]
  · exact currentEvents_enterStage call 0 slot
  · simp [start, passedEvents]

/-- The invariant holds after every run. -/
theorem inv_run {call : Call} {trace : List Event} {state : State}
    (run : Reaches (chain call) (start call) trace state) :
    Inv call trace state :=
  run.invariant (Inv call) (inv_start call) fun hinv _ hstep =>
    inv_step hinv hstep

end Citor.Chain
