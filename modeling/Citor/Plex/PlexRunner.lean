import Citor.Core.Interleaving
import Citor.Engine.SlotRunners

/-!
# The plex engine

One `runPlexParallel` call.  Slot 0, the producer, publishes the phases in
`currentPhase`; the other slots spin on it.  A program counter stands in front
of its slot's next atomic operation or inside a user callback.  Phases are
counted from zero as the callbacks see them, so phase `p` is published as
`p + 1` and stamped `epochBase + (p + 1)`.
-/

namespace Citor.Plex

open Citor.Interleaving
open Citor.DoneSlots
open Citor.SlotRunners

/-- `m_plexDoneSlots` and `m_plexEpochBase` follow the discipline of the chain
block. -/
abbrev PlexEpochs := ChainEpochs

/-- One call with two participants or more: the callbacks that throw, and the
block of done slots it finds. -/
structure Call where
  participants : ℕ
  two_le : 2 ≤ participants
  nPhases : ℕ
  nPhases_pos : 0 < nPhases
  prePhaseThrows : ℕ → Bool
  throws : ℕ → ℕ → Bool
  epochs : PlexEpochs

/-- `epochBase + p` for the phase published as `p`. -/
def Call.stamp (call : Call) (phase : ℕ) : ℕ :=
  call.epochs.epochBase + (phase + 1)

/-- `finalStamp`. -/
def Call.finalStamp (call : Call) : ℕ :=
  call.epochs.epochBase + call.nPhases

/-- Why a slot leaves before the last phase is through. -/
inductive Leaving
  /-- It saw a stop request or `phaseCancelled`. -/
  | cancelled
  | prePhase
  | body
  deriving DecidableEq, Repr

/-- Where a slot stands. -/
inductive Pc
  /-- Slot 0 in front of a phase, about to poll the token. -/
  | pollToken (phase : ℕ)
  /-- Slot 0, about to load `phaseCancelled`. -/
  | loadCancelled (phase : ℕ)
  | inPrePhase (phase : ℕ)
  /-- Slot 0, about to store `currentPhase` and enter its body. -/
  | publish (phase : ℕ)
  /-- Slot 0 in `waitPlexSlotsReachStamp` behind a finished phase. -/
  | joinPhase (phase peer : ℕ)
  /-- Slot 0 on a leaving path, about to store `currentPhase`. -/
  | publishLeaving (phase : ℕ) (why : Leaving)
  /-- Slot 0 on a leaving path, about to stamp the phase. -/
  | stampLeaving (phase : ℕ) (why : Leaving)
  /-- Slot 0 on a leaving path, in `waitPlexSlotsReachStamp`. -/
  | joinLeaving (phase peer : ℕ) (why : Leaving)
  /-- A worker that waits for `currentPhase`. -/
  | spin (phase : ℕ)
  /-- A worker that saw the phase published, about to load
  `phaseCancelled`. -/
  | published (phase : ℕ)
  /-- A worker that saw the flag, about to stamp the published phase. -/
  | stampObserved (phase : ℕ)
  /-- A worker, about to stamp the final epoch. -/
  | stampFinal (phase : ℕ) (why : Leaving)
  | inBody (phase : ℕ)
  /-- In a catch block. -/
  | capture (phase : ℕ) (why : Leaving)
  | storeCancelled (phase : ℕ) (why : Leaving)
  /-- The body returned; about to stamp the phase. -/
  | stampPhase (phase : ℕ)
  /-- Returned, with `passed` phases through. -/
  | left (passed : ℕ) (why : Option Leaving)
  deriving DecidableEq, Repr

/-- The failure of one callback. -/
inductive Failure
  | prePhase (phase : ℕ)
  | body (phase slot : ℕ)
  deriving DecidableEq, Repr

inductive Event
  | prePhaseStart (phase : ℕ)
  | prePhaseEnd (phase : ℕ)
  | bodyStart (phase slot : ℕ)
  | bodyEnd (phase slot : ℕ)
  /-- A callback threw. -/
  | threw (failure : Failure)
  deriving DecidableEq, Repr

/-- The words that only this engine has. -/
structure Own where
  currentPhase : ℕ

/-- The words of `PlexState`, the token, and where each slot is; `cancelled`
is `phaseCancelled`. -/
abbrev State := SlotRunners.State Pc Failure Own

inductive Action
  /-- The next atomic operation of one slot. -/
  | slot (slot : ℕ)
  /-- A spinning worker whose load of `currentPhase` is older than its load of
  `phaseCancelled`. -/
  | staleSpin (slot : ℕ)
  /-- The dispatch join and `rethrowIfCaptured`. -/
  | join
  /-- Somebody triggers the stop token. -/
  | requestStop
  deriving DecidableEq, Repr

/-- The failure a catch block captures. -/
def Leaving.failure (why : Leaving) (phase slot : ℕ) : Failure :=
  match why with
  | .prePhase => .prePhase phase
  | .cancelled | .body => .body phase slot

/-- The phase loop of a slot, at its head. -/
def enterPhase (call : Call) (phase slot : ℕ) : Pc :=
  if phase < call.nPhases then
    if slot = 0 then .pollToken phase else .spin phase
  else .left phase none

/-- What follows the store of `phaseCancelled`: a throwing body of slot 0 has
its phase published already, and workers have nothing to publish. -/
def afterCancel (phase slot : ℕ) (why : Leaving) : Pc :=
  if slot = 0 then
    if why = Leaving.body then .stampLeaving phase why
    else .publishLeaving phase why
  else .stampFinal phase why

/-- One atomic operation of `slot`.  A wait whose condition does not hold yet
only loads again; that is no step. -/
def stepSlot (call : Call) (state : State) (slot : ℕ) :
    Option (State × Option Event) :=
  match state.pc slot with
  | .pollToken phase =>
      if state.stopRequested then
        some (state.setPc slot (.storeCancelled phase .cancelled), none)
      else some (state.setPc slot (.loadCancelled phase), none)
  | .loadCancelled phase =>
      if state.cancelled then
        some (state.setPc slot (.storeCancelled phase .cancelled), none)
      else some (state.setPc slot (.inPrePhase phase),
        some (.prePhaseStart phase))
  | .inPrePhase phase =>
      if call.prePhaseThrows phase then
        some (state.setPc slot (.capture phase .prePhase),
          some (.threw (.prePhase phase)))
      else some (state.setPc slot (.publish phase), some (.prePhaseEnd phase))
  | .publish phase =>
      some ({ state with own.currentPhase := phase + 1 }.setPc slot
        (.inBody phase), some (.bodyStart phase slot))
  | .joinPhase phase peer =>
      if state.done peer < call.stamp phase then none
      else if peer + 1 < call.participants then
        some (state.setPc slot (.joinPhase phase (peer + 1)), none)
      else some (state.setPc slot (enterPhase call (phase + 1) slot), none)
  | .publishLeaving phase why =>
      some ({ state with own.currentPhase := phase + 1 }.setPc slot
        (if why = Leaving.cancelled then .joinLeaving phase 1 why
          else .stampLeaving phase why), none)
  | .stampLeaving phase why =>
      some ((state.stamp slot (call.stamp phase)).setPc slot
        (.joinLeaving phase 1 why), none)
  | .joinLeaving phase peer why =>
      if state.done peer < call.stamp phase then none
      else if peer + 1 < call.participants then
        some (state.setPc slot (.joinLeaving phase (peer + 1) why), none)
      else some (state.setPc slot (.left phase (some why)), none)
  | .spin phase =>
      if phase + 1 ≤ state.own.currentPhase then
        some (state.setPc slot (.published phase), none)
      else if state.cancelled then
        some (state.setPc slot (.stampFinal phase .cancelled), none)
      else none
  | .published phase =>
      if state.cancelled then
        some (state.setPc slot (.stampObserved phase), none)
      else some (state.setPc slot (.inBody phase),
        some (.bodyStart phase slot))
  | .stampObserved phase =>
      some ((state.stamp slot (call.stamp phase)).setPc slot
        (if phase + 1 < call.nPhases then .stampFinal phase .cancelled
          else .left phase (some .cancelled)), none)
  | .stampFinal phase why =>
      some ((state.stamp slot call.finalStamp).setPc slot
        (.left phase (some why)), none)
  | .inBody phase =>
      if call.throws phase slot then
        some (state.setPc slot (.capture phase .body),
          some (.threw (.body phase slot)))
      else some (state.setPc slot (.stampPhase phase),
        some (.bodyEnd phase slot))
  | .capture phase why =>
      some ({ state with
        firstException := captureFirstException state.firstException
          (why.failure phase slot) }.setPc slot
        (.storeCancelled phase why), none)
  | .storeCancelled phase why =>
      some ({ state with cancelled := true }.setPc slot
        (afterCancel phase slot why), none)
  | .stampPhase phase =>
      some ((state.stamp slot (call.stamp phase)).setPc slot
        (if slot = 0 then .joinPhase phase 1
          else enterPhase call (phase + 1) slot), none)
  | .left _ _ => none

/-- The exit of the spin loop on a stale `currentPhase`. -/
def stepStaleSpin (state : State) (slot : ℕ) :
    Option (State × Option Event) :=
  match state.pc slot with
  | .spin phase =>
      if state.cancelled then
        some (state.setPc slot (.stampFinal phase .cancelled), none)
      else none
  | _ => none

def Pc.hasLeft : Pc → Bool
  | .left _ _ => true
  | _ => false

/-- The plex call as a machine. -/
def plex (call : Call) : Machine State Action Event where
  step state
    | .slot slot =>
        if slot < call.participants then stepSlot call state slot else none
    | .staleSpin slot =>
        if slot < call.participants then stepStaleSpin state slot else none
    | .join =>
        if state.outcome = none ∧
            state.allLeft Pc.hasLeft call.participants then
          some ({ state with
            outcome := some (rethrowIfCaptured state.firstException) }, none)
        else none
    | .requestStop => some ({ state with stopRequested := true }, none)

/-- The state the producer publishes. -/
def start (call : Call) : State where
  pc := fun slot => enterPhase call 0 slot
  done := call.epochs.done
  cancelled := false
  firstException := none
  stopRequested := false
  outcome := none
  own := ⟨0⟩

end Citor.Plex
