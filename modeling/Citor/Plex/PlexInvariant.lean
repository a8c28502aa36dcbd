import Citor.Plex.PlexRunner

/-!
# The invariant of a plex call

Each slot's program counter determines its stamp up to the phases it is
through, the events it has emitted, and, for slot 0, the published phase.  A
step moves one slot and only lets stamps, progress and flags grow, so the
other slots keep their part of the invariant by monotonicity.
-/

namespace Citor.Plex

open Citor.Interleaving
open Citor.DoneSlots
open Citor.SlotRunners

/-- The phase a slot is at. -/
def Pc.phase : Pc → ℕ
  | .pollToken phase | .loadCancelled phase | .inPrePhase phase
  | .publish phase | .joinPhase phase _ | .publishLeaving phase _
  | .stampLeaving phase _ | .joinLeaving phase _ _ | .spin phase
  | .published phase | .stampObserved phase | .stampFinal phase _
  | .inBody phase | .capture phase _ | .storeCancelled phase _
  | .stampPhase phase | .left phase _ => phase

/-- The phases whose body the slot has finished. -/
def Pc.passed : Pc → ℕ
  | .stampPhase phase | .joinPhase phase _ => phase + 1
  | pc => pc.phase

/-- What slot 0 has published. -/
def Pc.publishedPhase : Pc → ℕ
  | .inBody phase | .stampPhase phase | .joinPhase phase _
  | .stampLeaving phase _ | .joinLeaving phase _ _
  | .left phase (some _) => phase + 1
  | .capture phase why | .storeCancelled phase why =>
      if why = Leaving.body then phase + 1 else phase
  | pc => pc.phase

/-- The phases a slot may have stamped. -/
def Pc.stampBound (call : Call) : Pc → ℕ
  | .joinPhase phase _ | .joinLeaving phase _ _ => phase + 1
  | .stampFinal _ _ | .left _ _ => call.nPhases
  | pc => pc.phase

/-- The phases a worker has stamped. -/
def Pc.stamped (call : Call) : Pc → ℕ
  | .left _ _ => call.nPhases
  | pc => pc.phase

def Failure.slot : Failure → ℕ
  | .prePhase _ => 0
  | .body _ slot => slot

def Failure.phase : Failure → ℕ
  | .prePhase phase | .body phase _ => phase

def Event.slot : Event → ℕ
  | .prePhaseStart _ | .prePhaseEnd _ => 0
  | .bodyStart _ slot | .bodyEnd _ slot => slot
  | .threw failure => failure.slot

/-- The phase an event starts a callback of. -/
def Event.starts : Event → Option ℕ
  | .prePhaseStart phase | .bodyStart phase _ => some phase
  | _ => none

/-- What slot 0 emits in front of the body of a phase. -/
def preEvents (phase slot : ℕ) : List Event :=
  if slot = 0 then [.prePhaseStart phase, .prePhaseEnd phase] else []

/-- What a slot emits for a phase it gets through. -/
def phaseEvents (phase slot : ℕ) : List Event :=
  preEvents phase slot ++ [.bodyStart phase slot, .bodyEnd phase slot]

/-- What a slot emits for its first `passed` phases. -/
def passedEvents (slot : ℕ) : ℕ → List Event
  | 0 => []
  | passed + 1 => passedEvents slot passed ++ phaseEvents passed slot

/-- What a slot emits for a phase it leaves in. -/
def leavingEvents (phase slot : ℕ) : Leaving → List Event
  | .cancelled => []
  | .prePhase => [.prePhaseStart phase, .threw (.prePhase phase)]
  | .body => preEvents phase slot ++
      [.bodyStart phase slot, .threw (.body phase slot)]

/-- What a slot has emitted for the phase it is at. -/
def currentEvents (slot : ℕ) : Pc → List Event
  | .inPrePhase phase => [.prePhaseStart phase]
  | .publish phase => [.prePhaseStart phase, .prePhaseEnd phase]
  | .inBody phase => preEvents phase slot ++ [.bodyStart phase slot]
  | .capture phase why | .storeCancelled phase why
  | .publishLeaving phase why | .stampLeaving phase why
  | .joinLeaving phase _ why | .stampFinal phase why
  | .left phase (some why) => leavingEvents phase slot why
  | _ => []

/-- Every worker has stamped the phases below `phase`. -/
def Joined (call : Call) (state : State) (phase : ℕ) : Prop :=
  ∀ peer, 1 ≤ peer → peer < call.participants → ∀ before < phase,
    call.stamp before ≤ state.done peer

/-- The workers below `peer` have stamped `phase`. -/
def JoinedUpTo (call : Call) (state : State) (phase peer : ℕ) : Prop :=
  ∀ earlier, 1 ≤ earlier → earlier < peer →
    call.stamp phase ≤ state.done earlier

/-- Every slot is through the phases below `phase`. -/
def Ready (call : Call) (state : State) (phase : ℕ) : Prop :=
  ∀ slot < call.participants, phase ≤ (state.pc slot).passed

/-- A slot that leaves for a failure has captured it or lost to another. -/
def Captured (state : State) (why : Leaving) : Prop :=
  why ≠ .cancelled → state.firstException ≠ none

/-- What a program counter alone says about the state. -/
def PcOk (call : Call) (state : State) (slot : ℕ) : Pc → Prop
  | .pollToken phase | .loadCancelled phase =>
      slot = 0 ∧ phase < call.nPhases ∧ Joined call state phase
  | .inPrePhase phase | .publish phase =>
      slot = 0 ∧ phase < call.nPhases ∧ Joined call state phase ∧
        Ready call state phase
  | .joinPhase phase peer =>
      slot = 0 ∧ phase < call.nPhases ∧ Joined call state phase ∧
        1 ≤ peer ∧ peer < call.participants ∧
        JoinedUpTo call state phase peer
  | .publishLeaving phase why =>
      slot = 0 ∧ phase < call.nPhases ∧ why ≠ .body ∧
        state.cancelled = true ∧ Captured state why
  | .stampLeaving phase why =>
      slot = 0 ∧ phase < call.nPhases ∧ why ≠ .cancelled ∧
        state.cancelled = true ∧ Captured state why
  | .joinLeaving phase peer why =>
      slot = 0 ∧ phase < call.nPhases ∧ 1 ≤ peer ∧
        peer < call.participants ∧ state.cancelled = true ∧
        Captured state why
  | .spin phase =>
      slot ≠ 0 ∧ phase < call.nPhases
  | .published phase =>
      slot ≠ 0 ∧ phase < call.nPhases ∧ phase + 1 ≤ state.own.currentPhase
  | .stampObserved phase =>
      slot ≠ 0 ∧ phase < call.nPhases ∧ state.cancelled = true
  | .stampFinal phase why =>
      slot ≠ 0 ∧ phase < call.nPhases ∧ why ≠ .prePhase ∧
        state.cancelled = true ∧ Captured state why
  | .inBody phase | .stampPhase phase =>
      phase < call.nPhases ∧ Ready call state phase ∧
        (slot = 0 → Joined call state phase)
  | .capture phase why =>
      phase < call.nPhases ∧ why ≠ .cancelled ∧
        (slot ≠ 0 → why = .body) ∧ (slot = 0 → Joined call state phase)
  | .storeCancelled phase why =>
      phase < call.nPhases ∧ (slot ≠ 0 → why = .body) ∧
        (slot = 0 → Joined call state phase) ∧ Captured state why ∧
        (why = .cancelled →
          state.stopRequested = true ∨ state.cancelled = true)
  | .left passed none =>
      passed = call.nPhases ∧ (slot = 0 → Joined call state passed)
  | .left passed (some why) =>
      passed < call.nPhases ∧ state.cancelled = true ∧
        Captured state why

/-- The invariant as one slot sees it. -/
structure SlotInv (call : Call) (trace : List Event) (state : State)
    (slot : ℕ) : Prop where
  pcOk : PcOk call state slot (state.pc slot)
  done_le : state.done slot ≤
    call.epochs.epochBase + (state.pc slot).stampBound call
  le_done : slot ≠ 0 → ∀ phase < (state.pc slot).stamped call,
    call.stamp phase ≤ state.done slot
  history : trace.filter (fun event => event.slot = slot) =
    passedEvents slot (state.pc slot).passed ++
      currentEvents slot (state.pc slot)

/-- The invariant of a plex call. -/
structure Inv (call : Call) (trace : List Event) (state : State) : Prop where
  slots : ∀ slot < call.participants, SlotInv call trace state slot
  published : state.own.currentPhase = (state.pc 0).publishedPhase
  disturbed : state.cancelled = true → state.disturbed
  thrown : ∀ failure, state.firstException = some failure →
    .threw failure ∈ trace
  bounded : ∀ event ∈ trace, event.slot < call.participants
  outcome : ∀ outcome, state.outcome = some outcome →
    state.allLeft Pc.hasLeft call.participants = true ∧
      outcome = rethrowIfCaptured state.firstException

/-! ## What a step leaves alone -/

/-- The published phase grows with the rest. -/
structure Grows (before after : State) : Prop
    extends SlotRunners.Grows Pc.passed before after where
  currentPhase : before.own.currentPhase ≤ after.own.currentPhase

section Monotone

variable {call : Call} {before after : State} {slot phase : ℕ}

theorem Joined.mono (hgrows : Grows before after)
    (hjoined : Joined call before phase) : Joined call after phase :=
  fun peer hpos hpeer earlier hearlier =>
    (hjoined peer hpos hpeer earlier hearlier).trans (hgrows.done peer)

theorem Joined.lower {lower : ℕ} (hle : lower ≤ phase)
    (hjoined : Joined call before phase) : Joined call before lower :=
  fun peer hpos hpeer earlier hearlier =>
    hjoined peer hpos hpeer earlier (hearlier.trans_le hle)

theorem JoinedUpTo.mono {peer : ℕ} (hgrows : Grows before after)
    (hjoined : JoinedUpTo call before phase peer) :
    JoinedUpTo call after phase peer :=
  fun earlier hpos hearlier =>
    (hjoined earlier hpos hearlier).trans (hgrows.done earlier)

theorem Ready.mono (hgrows : Grows before after)
    (hready : Ready call before phase) : Ready call after phase :=
  fun slot hslot => (hready slot hslot).trans (hgrows.passed slot)

theorem Captured.mono {why : Leaving} (hgrows : Grows before after)
    (hcaptured : Captured before why) : Captured after why :=
  fun hwhy => hgrows.firstException (hcaptured hwhy)

theorem PcOk.mono {pc : Pc} (hgrows : Grows before after)
    (hok : PcOk call before slot pc) : PcOk call after slot pc := by
  cases pc with
  | pollToken phase => exact ⟨hok.1, hok.2.1, hok.2.2.mono hgrows⟩
  | loadCancelled phase => exact ⟨hok.1, hok.2.1, hok.2.2.mono hgrows⟩
  | inPrePhase phase =>
      exact ⟨hok.1, hok.2.1, hok.2.2.1.mono hgrows, hok.2.2.2.mono hgrows⟩
  | publish phase =>
      exact ⟨hok.1, hok.2.1, hok.2.2.1.mono hgrows, hok.2.2.2.mono hgrows⟩
  | joinPhase phase peer =>
      obtain ⟨hslot, hphase, hjoined, hpos, hpeer, hupTo⟩ := hok
      exact ⟨hslot, hphase, hjoined.mono hgrows, hpos, hpeer,
        hupTo.mono hgrows⟩
  | publishLeaving phase why =>
      obtain ⟨hslot, hphase, hwhy, hcancelled, hcaptured⟩ := hok
      exact ⟨hslot, hphase, hwhy, hgrows.cancelled hcancelled,
        hcaptured.mono hgrows⟩
  | stampLeaving phase why =>
      obtain ⟨hslot, hphase, hwhy, hcancelled, hcaptured⟩ := hok
      exact ⟨hslot, hphase, hwhy, hgrows.cancelled hcancelled,
        hcaptured.mono hgrows⟩
  | joinLeaving phase peer why =>
      obtain ⟨hslot, hphase, hpos, hpeer, hcancelled, hcaptured⟩ := hok
      exact ⟨hslot, hphase, hpos, hpeer, hgrows.cancelled hcancelled,
        hcaptured.mono hgrows⟩
  | spin phase => exact hok
  | published phase =>
      exact ⟨hok.1, hok.2.1, hok.2.2.trans hgrows.currentPhase⟩
  | stampObserved phase =>
      exact ⟨hok.1, hok.2.1, hgrows.cancelled hok.2.2⟩
  | stampFinal phase why =>
      obtain ⟨hslot, hphase, hwhy, hcancelled, hcaptured⟩ := hok
      exact ⟨hslot, hphase, hwhy, hgrows.cancelled hcancelled,
        hcaptured.mono hgrows⟩
  | inBody phase =>
      exact ⟨hok.1, hok.2.1.mono hgrows,
        fun hslot => (hok.2.2 hslot).mono hgrows⟩
  | stampPhase phase =>
      exact ⟨hok.1, hok.2.1.mono hgrows,
        fun hslot => (hok.2.2 hslot).mono hgrows⟩
  | capture phase why =>
      obtain ⟨hphase, hwhy, hworker, hjoined⟩ := hok
      exact ⟨hphase, hwhy, hworker, fun hslot => (hjoined hslot).mono hgrows⟩
  | storeCancelled phase why =>
      obtain ⟨hphase, hworker, hjoined, hcaptured, hcause⟩ := hok
      exact ⟨hphase, hworker, fun hslot => (hjoined hslot).mono hgrows,
        hcaptured.mono hgrows, fun hwhy =>
          (hcause hwhy).imp hgrows.stopRequested hgrows.cancelled⟩
  | left passed why =>
      cases why with
      | none => exact ⟨hok.1, fun hslot => (hok.2 hslot).mono hgrows⟩
      | some why =>
          exact ⟨hok.1, hgrows.cancelled hok.2.1, hok.2.2.mono hgrows⟩

/-- A slot that does not move keeps its part of the invariant. -/
theorem SlotInv.mono {trace : List Event} {event : Option Event}
    (hgrows : Grows before after) (hpc : after.pc slot = before.pc slot)
    (hdone : after.done slot = before.done slot)
    (hevent : ∀ emitted ∈ event, emitted.slot ≠ slot)
    (hinv : SlotInv call trace before slot) :
    SlotInv call (trace ++ event.toList) after slot where
  pcOk := by
    rw [hpc]
    exact hinv.pcOk.mono hgrows
  done_le := by
    rw [hpc, hdone]
    exact hinv.done_le
  le_done := by
    rw [hpc, hdone]
    exact hinv.le_done
  history := by
    rw [hpc, List.filter_append, hinv.history]
    cases event with
    | none => simp
    | some emitted => simp [hevent emitted rfl]

end Monotone

/-! ## The moving slot -/

/-- What every step of a slot does to the words it does not own. -/
structure Moves (slot : ℕ) (pc : Pc) (before after : State) : Prop
    extends SlotRunners.Moves Pc.passed slot pc before after where
  currentPhase : before.own.currentPhase ≤ after.own.currentPhase

section Moving

variable {call : Call} {trace : List Event} {before after : State}
variable {slot : ℕ} {pc : Pc} {event : Option Event}

theorem Moves.grows (hmoves : Moves slot pc before after) :
    Grows before after :=
  ⟨hmoves.toMoves.grows, hmoves.currentPhase⟩

/-- A step that only moves the program counter. -/
theorem Moves.ofSetPc (hpassed : (before.pc slot).passed ≤ pc.passed) :
    Moves slot pc before (before.setPc slot pc) :=
  ⟨moves_setPc hpassed, le_rfl⟩

/-- A step that also stamps. -/
theorem Moves.ofStamp {epoch : ℕ}
    (hpassed : (before.pc slot).passed ≤ pc.passed)
    (hepoch : before.done slot ≤ epoch) :
    Moves slot pc before ((before.stamp slot epoch).setPc slot pc) :=
  ⟨moves_stamp hpassed hepoch, le_rfl⟩

/-- The moving slot's part of the invariant. -/
theorem SlotInv.moved (hinv : SlotInv call trace before slot)
    (hmoves : Moves slot pc before after)
    (hok : PcOk call after slot pc)
    (hdone_le : after.done slot ≤
      call.epochs.epochBase + pc.stampBound call)
    (hle_done : slot ≠ 0 → ∀ phase < pc.stamped call,
      call.stamp phase ≤ after.done slot)
    (hevent : ∀ emitted ∈ event, emitted.slot = slot)
    (hhistory : passedEvents slot pc.passed ++ currentEvents slot pc =
      passedEvents slot (before.pc slot).passed ++
        currentEvents slot (before.pc slot) ++ event.toList) :
    SlotInv call (trace ++ event.toList) after slot := by
  have hpc : after.pc slot = pc := by
    rw [hmoves.atPc, Function.update_self]
  refine ⟨by rwa [hpc], by rwa [hpc], by rwa [hpc], ?_⟩
  rw [hpc, hhistory, List.filter_append, hinv.history]
  cases event with
  | none => simp
  | some emitted => simp [hevent emitted rfl]

/-- The moving slot without a stamp. -/
theorem SlotInv.quiet (hinv : SlotInv call trace before slot)
    (hmoves : Moves slot pc before after)
    (hdone : after.done slot = before.done slot)
    (hok : PcOk call after slot pc)
    (hbound : (before.pc slot).stampBound call ≤ pc.stampBound call)
    (hstamped : slot ≠ 0 →
      pc.stamped call ≤ (before.pc slot).stamped call)
    (hevent : ∀ emitted ∈ event, emitted.slot = slot)
    (hhistory : passedEvents slot pc.passed ++ currentEvents slot pc =
      passedEvents slot (before.pc slot).passed ++
        currentEvents slot (before.pc slot) ++ event.toList) :
    SlotInv call (trace ++ event.toList) after slot := by
  refine hinv.moved hmoves hok ?_ ?_ hevent hhistory
  · have := hinv.done_le
    omega
  · intro hworker phase hphase
    rw [hdone]
    exact hinv.le_done hworker phase (hphase.trans_le (hstamped hworker))

end Moving

end Citor.Plex
