import Citor.Core.Interleaving
import Citor.Engine.SlotRunners

/-!
# The same-chunk chain engine

One `parallelChain` call in its default mode: every slot runs
`runChainStageForSlot` over the whole stage list.  A slot's program counter
stands in front of its next atomic operation (a load or store of `done`,
`chainCancelled` or the stop token, the capture of an exception) or inside a
user body.  The barrier kinds are template arguments in the source, so the
choice between them is not a step.
-/

namespace Citor.Chain

open Citor.Interleaving
open Citor.DoneSlots
open Citor.SlotRunners

/-- The barrier a stage declares behind itself. -/
inductive BarrierKind
  | none
  | global
  | deterministicReduce
  | producerSerial
  deriving DecidableEq, Repr

/-- `Global` and `DeterministicReduce` share the rendezvous. -/
def BarrierKind.isRendezvous : BarrierKind → Bool
  | .global | .deterministicReduce => true
  | .none | .producerSerial => false

/-- One call: the pool's participant count, the stage list and the stage
bodies that throw. -/
structure Call where
  participants : ℕ
  two_le : 2 ≤ participants
  barriers : List BarrierKind
  throws : ℕ → ℕ → Bool
  epochs : ChainEpochs

def Call.nStages (call : Call) : ℕ :=
  call.barriers.length

/-- The barrier declared by `stage`; stages past the end declare none. -/
def Call.barrier (call : Call) (stage : ℕ) : BarrierKind :=
  call.barriers.getD stage .none

/-- The barrier in front of `stage`, declared by the stage before it. -/
def Call.barrierBefore (call : Call) : ℕ → BarrierKind
  | 0 => .none
  | stage + 1 => call.barrier stage

/-- Whether `slot` invokes the body of `stage`: behind a `ProducerSerial`
barrier only slot 0 does. -/
def Call.runsBody (call : Call) (stage slot : ℕ) : Bool :=
  slot = 0 || call.barrierBefore stage ≠ .producerSerial

/-- Whether `slot` stamps `done` after `stage`: `kThisStampNeeded`, or slot 0
behind a `ProducerSerial` barrier. -/
def Call.stampNeeded (call : Call) (stage slot : ℕ) : Bool :=
  call.barrier stage ≠ .none ||
    (call.barrierBefore stage = .producerSerial && slot = 0)

/-- Where a slot stands in `runChainStageForSlot`. -/
inductive Pc
  /-- `waitAllSlotsDone`, about to read the peer `step` places ahead. -/
  | scanPeers (stage step : ℕ)
  /-- `waitProducerSerialBarrier`. -/
  | waitProducer (stage : ℕ)
  /-- At the stage boundary, about to load `chainCancelled`. -/
  | loadCancelled (stage : ℕ)
  /-- `chainCancelled` was clear; about to poll the token. -/
  | pollToken (stage : ℕ)
  /-- Leaving early; about to poll the token again. -/
  | repollToken (stage : ℕ)
  | storeCancelled (stage : ℕ)
  | stampFinal (stage : ℕ)
  | inBody (stage : ℕ)
  /-- In the catch block of `stage`. -/
  | capture (stage : ℕ)
  | stampStage (stage : ℕ)
  /-- Returned; `passed` counts the stages the slot got through. -/
  | left (passed : ℕ)
  deriving DecidableEq, Repr

/-- The failure of one stage body. -/
structure Failure where
  stage : ℕ
  slot : ℕ
  deriving DecidableEq, Repr

inductive Event
  | bodyStart (stage slot : ℕ)
  | bodyEnd (stage slot : ℕ)
  | bodyThrow (stage slot : ℕ)
  /-- The catch block offered the failure to `firstException`. -/
  | captured (failure : Failure)
  deriving DecidableEq, Repr

/-- The words of the call; `cancelled` is `chainCancelled`. -/
abbrev State := SlotRunners.State Pc Failure Unit

inductive Action
  /-- The next atomic operation of one slot. -/
  | slot (slot : ℕ)
  /-- The dispatch join and `rethrowIfCaptured`. -/
  | join
  /-- Somebody triggers the stop token. -/
  | requestStop
  deriving DecidableEq, Repr

/-- The entry of `runChainStageForSlot<stage>`: the pre-stage barrier the
previous stage declared, or the end of the recursion. -/
def enterStage (call : Call) (stage slot : ℕ) : Pc :=
  if stage < call.nStages then
    if (call.barrierBefore stage).isRendezvous then .scanPeers stage 1
    else if call.barrierBefore stage = .producerSerial ∧ slot ≠ 0 then
      .waitProducer stage
    else .loadCancelled stage
  else .left stage

/-- After the body, or after skipping it. -/
def afterBody (call : Call) (stage slot : ℕ) : Pc :=
  if call.stampNeeded stage slot then .stampStage stage
  else enterStage call (stage + 1) slot

/-- One atomic operation of `slot`.  A wait whose condition does not hold yet
only re-reads its stamp; that is no step. -/
def stepSlot (call : Call) (state : State) (slot : ℕ) :
    Option (State × Option Event) :=
  let base := call.epochs.epochBase
  match state.pc slot with
  | .scanPeers stage step =>
      if state.done (scanPeer call.participants slot step) < base + stage then
        none
      else if step + 1 < call.participants then
        some (state.setPc slot (.scanPeers stage (step + 1)), none)
      else some (state.setPc slot (.loadCancelled stage), none)
  | .waitProducer stage =>
      if state.done 0 < base + (stage + 1) then none
      else some (state.setPc slot (.loadCancelled stage), none)
  | .loadCancelled stage =>
      if state.cancelled then
        some (state.setPc slot (.repollToken stage), none)
      else some (state.setPc slot (.pollToken stage), none)
  | .pollToken stage =>
      if state.stopRequested then
        some (state.setPc slot (.repollToken stage), none)
      else if call.runsBody stage slot then
        some (state.setPc slot (.inBody stage), some (.bodyStart stage slot))
      else some (state.setPc slot (afterBody call stage slot), none)
  | .repollToken stage =>
      if state.stopRequested then
        some (state.setPc slot (.storeCancelled stage), none)
      else some (state.setPc slot (.stampFinal stage), none)
  | .storeCancelled stage =>
      some ({ state with cancelled := true }.setPc slot
        (.stampFinal stage), none)
  | .stampFinal stage =>
      some ((state.stamp slot (base + call.nStages)).setPc slot
        (.left stage), none)
  | .inBody stage =>
      if call.throws stage slot then
        some (state.setPc slot (.capture stage), some (.bodyThrow stage slot))
      else some (state.setPc slot (afterBody call stage slot),
        some (.bodyEnd stage slot))
  | .capture stage =>
      some ({ state with
        firstException :=
          captureFirstException state.firstException ⟨stage, slot⟩ }.setPc
        slot (.storeCancelled stage), some (.captured ⟨stage, slot⟩))
  | .stampStage stage =>
      some ((state.stamp slot (base + (stage + 1))).setPc slot
        (enterStage call (stage + 1) slot), none)
  | .left _ => none

/-- Whether a slot has returned from its share of the dispatch. -/
def Pc.hasLeft : Pc → Bool
  | .left _ => true
  | _ => false

/-- The chain call as a machine. -/
def chain (call : Call) : Machine State Action Event where
  step state
    | .slot slot =>
        if slot < call.participants then stepSlot call state slot else none
    | .join =>
        if state.outcome = none ∧
            state.allLeft Pc.hasLeft call.participants then
          some ({ state with
            outcome := some (rethrowIfCaptured state.firstException) }, none)
        else none
    | .requestStop => some ({ state with stopRequested := true }, none)

/-- The state the producer publishes. -/
def start (call : Call) : State where
  pc := fun slot => enterStage call 0 slot
  done := call.epochs.done
  cancelled := false
  stopRequested := false
  firstException := none
  outcome := none
  own := ()

end Citor.Chain
