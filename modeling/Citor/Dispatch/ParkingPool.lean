import Citor.Core.Interleaving
import Citor.Dispatch.WorkerLoop

/-!
# Dispatches, parking and low-latency guards on one pool

Threads dispatch on one pool and create and destroy `LowLatencyGuard` objects
while its workers spin and park.  Every thread that dispatches, every guard
and every worker has a program counter in front of its next atomic operation.
A futex wake carries the waiters that the kernel picked: as many as it asked
for, or all there are.
-/

namespace Citor.ParkingPool

open Citor.Interleaving
open Citor.WorkerLoop
open WorkerSlots (tryClaimRank)

/-- What a dispatching call brings along. -/
structure Request where
  /-- The call drains cold-stamped acks before its lease, as `parallelFor`
  does. -/
  drainsFirst : Bool
  /-- The call publishes through `dispatchOneStaticLocked`. -/
  locked : Bool
  /-- The descriptor wires `workerStateBase`. -/
  coldCollapseCapable : Bool
  preWakeCompletionProbe : Bool
  reuseSafe : Bool
  /-- `desc.blockCount > participants`. -/
  multiBlock : Bool
  deriving DecidableEq, Repr

/-- What `dispatchOneStaticLockedBody` works with. -/
structure Dispatch extends WorkerSlots.Dispatch where
  lowLatencyActive : Bool
  gateSkipped : Bool
  coldCollapseCapable : Bool
  preWakeCompletionProbe : Bool
  deriving DecidableEq, Repr

/-- `publishedMb`. -/
def Dispatch.published (dispatch : Dispatch) : Mailbox :=
  dispatch.toDispatch.publishedWith dispatch.coldCollapseCapable

/-- `doneSentinelMb`. -/
def Dispatch.doneSentinel (dispatch : Dispatch) : Mailbox :=
  dispatch.published.doneVal

/-- Which drain of the cold-stamped acks: the one at the entry of the call or
the one in front of the publication. -/
inductive DrainSite
  | entry (request : Request)
  | publication (dispatch : Dispatch)
  deriving DecidableEq, Repr

/-- Where a thread stands in a dispatching call. -/
inductive ProducerPc
  | idle
  /-- `drainColdStampedAcks`, about to load `hotSpinDepth`. -/
  | drainProbe (request : Request)
  /-- Scanning the cold-stamped slots for acks. -/
  | drain (site : DrainSite) (lowLatencyActive : Bool)
  | drainStore (site : DrainSite) (lowLatencyActive : Bool) (word : ℕ)
  | drainWake (site : DrainSite) (lowLatencyActive : Bool)
  /-- `DispatchLease`, about to load `hotSpinDepth`. -/
  | lease (request : Request)
  | lock (request : Request)
  /-- `dispatchOneStaticLocked`, about to load `hotSpinDepth`. -/
  | reprobe (request : Request) (gateSkipped : Bool)
  | loadGeneration (request : Request) (gateSkipped lowLatencyActive : Bool)
  | storeGeneration (dispatch : Dispatch)
  | publish (dispatch : Dispatch) (slot : ℕ)
  /-- The pre-wake probe, with the slots it has not seen done. -/
  | probe (dispatch : Dispatch) (pendingProbe : List ℕ)
  | loadWord (dispatch : Dispatch)
  | storeWord (dispatch : Dispatch) (word : ℕ)
  | wake (dispatch : Dispatch)
  /-- Running slot 0; `elided` says that the wake was skipped. -/
  | body (dispatch : Dispatch) (elided : Bool)
  | join (dispatch : Dispatch) (elided : Bool) (slot : ℕ)
  /-- Running the share of a rank it claimed. -/
  | coverBody (dispatch : Dispatch) (elided : Bool) (slot : ℕ)
  | coverStamp (dispatch : Dispatch) (elided : Bool) (slot : ℕ)
  | coverMark (dispatch : Dispatch) (elided : Bool) (slot : ℕ)
  deriving DecidableEq, Repr

/-- Where a `LowLatencyGuard` stands. -/
inductive GuardPc
  /-- The epoch is taken; about to raise `hotSpinDepth`. -/
  | raise
  /-- `wakeWorkers`, called while waiting for a slot's acknowledgement. -/
  | loadWord (slot : ℕ)
  | storeWord (slot word : ℕ)
  | wakeAll (slot : ℕ)
  | awaitAck (slot : ℕ)
  /-- The constructor has returned. -/
  | alive
  | destroyed
  deriving DecidableEq, Repr

/-- A guard; those on other pools only move the owner pointer. -/
structure Guard where
  onPool : Bool
  epoch : ℕ
  /-- `m_prevOwnerPool`: whether the saved owner pointer named the pool. -/
  prevOwner : Bool
  pc : GuardPc
  deriving DecidableEq, Repr

structure State where
  control : Control
  generation : ℕ
  coldStamped : ℕ → Bool
  dispatchMutex : Bool
  /-- Whether `lowLatencyOwnerPoolTls` of a thread names the pool. -/
  lowLatencyOwner : ℕ → Bool
  slots : ℕ → Slot
  producer : ℕ → ProducerPc
  guards : List Guard

/-- What an observer of the futex word sees. -/
inductive Event
  /-- A worker read its park token. -/
  | token (slot : ℕ)
  /-- The word was stored. -/
  | bump (value : ℕ)
  /-- A worker's futex wait put it to sleep. -/
  | slept (slot : ℕ)
  deriving DecidableEq, Repr

inductive Action
  /-- A thread calls a dispatching primitive. -/
  | dispatch (thread : ℕ) (request : Request)
  /-- The next atomic operation of a thread's call. -/
  | advance (thread : ℕ)
  /-- The drain finds a cold-stamped slot acked. -/
  | collect (thread slot : ℕ)
  /-- The pre-wake probe finds a slot done. -/
  | probeDone (thread slot : ℕ)
  /-- The probe rounds are used up. -/
  | giveUp (thread : ℕ)
  /-- The join claims the rank it waits for. -/
  | cover (thread : ℕ)
  /-- A thread's `futexWakePrivate(2)`. -/
  | wakeTwo (thread : ℕ) (released : List ℕ)
  /-- The next atomic operation of a worker. -/
  | worker (slot : ℕ)
  | leaveSpin (slot : ℕ)
  /-- A worker's `futexWakePrivate(2)`. -/
  | chainWake (slot : ℕ) (released : List ℕ)
  /-- A futex wait returns by itself. -/
  | interrupt (slot : ℕ)
  /-- A thread constructs a guard on the pool or on another one. -/
  | engage (thread : ℕ) (onPool : Bool)
  /-- The next atomic operation of a guard's constructor. -/
  | advanceGuard (index : ℕ)
  /-- A guard's constructor wakes the workers again. -/
  | retryWake (index : ℕ)
  /-- A thread destroys a guard. -/
  | disengage (thread index : ℕ)
  deriving DecidableEq, Repr

/-! ## Updates -/

namespace State

variable (state : State)

def setProducer (thread : ℕ) (pc : ProducerPc) : State :=
  { state with producer := Function.update state.producer thread pc }

def setSlot (index : ℕ) (slot : Slot) : State :=
  { state with slots := Function.update state.slots index slot }

def setGuard (index : ℕ) (guard : Guard) : State :=
  { state with guards := state.guards.set index guard }

def storeWord (word : ℕ) : State :=
  { state with control := { state.control with futexWord := word } }

/-- `futexWakePrivate(INT_MAX)`. -/
def releaseAll : State :=
  { state with slots := fun index => (state.slots index).rouse }

end State

/-! ## The producer -/

/-- The slots that `pendingMaskBits` covers. -/
def pendingMask (participants : ℕ) : List ℕ :=
  (List.range (min participants 64)).filter (1 ≤ ·)

/-- The dispatch that follows generation `prev`. -/
def Request.dispatch (participants prev : ℕ) (request : Request)
    (gateSkipped lowLatencyActive : Bool) : Dispatch where
  generation := prev + 1
  lowLatencyActive := lowLatencyActive
  gateSkipped := gateSkipped
  reuseSafe := request.reuseSafe
  skipColdCollapse := WorkerSlots.skipColdCollapse participants lowLatencyActive
    (request.reuseSafe && request.multiBlock) request.coldCollapseCapable
  coldCollapseCapable := request.coldCollapseCapable
  preWakeCompletionProbe := request.preWakeCompletionProbe

/-- Behind the lease: the locked entry probes `hotSpinDepth` once more. -/
def behindLease (request : Request) (gateSkipped : Bool) : ProducerPc :=
  if request.locked then .reprobe request gateSkipped
  else .loadGeneration request gateSkipped gateSkipped

/-- Behind a drain. -/
def behindDrain : DrainSite → ProducerPc
  | .entry request => .lease request
  | .publication dispatch => .publish dispatch 1

/-- Behind the publication: the pre-wake probe, the wake or neither. -/
def behindPublish (participants : ℕ) (dispatch : Dispatch) : ProducerPc :=
  if dispatch.lowLatencyActive then .body dispatch true
  else if dispatch.preWakeCompletionProbe ∧ 1 < participants then
    .probe dispatch (pendingMask participants)
  else .loadWord dispatch

/-- Whether some slot is cold-stamped. -/
def State.draining (participants : ℕ) (state : State) : Prop :=
  ∃ slot < participants, state.coldStamped slot = true

instance (participants : ℕ) (state : State) :
    Decidable (state.draining participants) :=
  inferInstanceAs (Decidable (∃ slot < participants, _))

/-- The end of a dispatching call, where the lease gives the gate back. -/
def State.finish (state : State) (thread : ℕ) (dispatch : Dispatch) : State :=
  { state with
    dispatchMutex := if dispatch.gateSkipped then state.dispatchMutex
      else false }.setProducer thread .idle

/-- The next atomic operation of a thread's call, wakes and choices apart. -/
def stepProducer (participants : ℕ) (state : State) (thread : ℕ) :
    Option (State × Option Event) :=
  match state.producer thread with
  | .idle => none
  | .drainProbe request =>
      some (state.setProducer thread
        (.drain (.entry request) (state.control.hotSpinDepth ≠ 0)), none)
  | .drain site lowLatencyActive =>
      if state.draining participants then
        if lowLatencyActive then none
        else some (state.setProducer thread
          (.drainStore site lowLatencyActive state.control.futexWord), none)
      else some (state.setProducer thread (behindDrain site), none)
  | .drainStore site lowLatencyActive word =>
      some ((state.storeWord (word + 1)).setProducer thread
        (.drainWake site lowLatencyActive), some (.bump (word + 1)))
  | .lease request =>
      if state.control.hotSpinDepth ≠ 0 ∧
          state.lowLatencyOwner thread = true then
        some (state.setProducer thread (behindLease request true), none)
      else some (state.setProducer thread (.lock request), none)
  | .lock request =>
      if state.dispatchMutex then none
      else some ({ state with dispatchMutex := true }.setProducer thread
        (behindLease request false), none)
  | .reprobe request gateSkipped =>
      some (state.setProducer thread (.loadGeneration request gateSkipped
        (state.control.hotSpinDepth ≠ 0)), none)
  | .loadGeneration request gateSkipped lowLatencyActive =>
      some (state.setProducer thread (.storeGeneration
        (request.dispatch participants state.generation gateSkipped
          lowLatencyActive)), none)
  | .storeGeneration dispatch =>
      some ({ state with
          control := { state.control with activeJob := true }
          generation := dispatch.generation }.setProducer thread
        (.drain (.publication dispatch) dispatch.lowLatencyActive), none)
  | .publish dispatch slot =>
      if slot < participants then
        some ((state.setSlot slot { state.slots slot with
            mailbox := dispatch.published }).setProducer thread
          (.publish dispatch (slot + 1)), none)
      else some (state.setProducer thread
        (behindPublish participants dispatch), none)
  | .probe dispatch pendingProbe =>
      if pendingProbe = [] then
        some (state.setProducer thread (.body dispatch true), none)
      else none
  | .loadWord dispatch =>
      some (state.setProducer thread
        (.storeWord dispatch state.control.futexWord), none)
  | .storeWord dispatch word =>
      some ((state.storeWord (word + 1)).setProducer thread (.wake dispatch),
        some (.bump (word + 1)))
  | .body dispatch elided =>
      some (state.setProducer thread (.join dispatch elided 1), none)
  | .join dispatch elided slot =>
      if slot < participants then
        if (state.slots slot).mailbox.withoutAck = dispatch.doneSentinel then
          some (state.setProducer thread (.join dispatch elided (slot + 1)),
            none)
        else none
      else some (state.finish thread dispatch, none)
  | .coverBody dispatch elided slot =>
      some (state.setProducer thread (.coverStamp dispatch elided slot), none)
  | .coverStamp dispatch elided slot =>
      if (state.slots slot).mailbox = dispatch.published then
        some ((state.setSlot slot { state.slots slot with
            mailbox := dispatch.doneSentinel }).setProducer thread
          (if dispatch.reuseSafe then .join dispatch elided (slot + 1)
            else .coverMark dispatch elided slot), none)
      else some (state.setProducer thread (.join dispatch elided (slot + 1)),
        none)
  | .coverMark dispatch elided slot =>
      some ({ state with
          coldStamped := Function.update state.coldStamped slot true
          }.setProducer thread (.join dispatch elided (slot + 1)), none)
  | .drainWake _ _ | .wake _ => none

/-- Whether the join may run a rank itself. -/
def mayCover (participants : ℕ) (dispatch : Dispatch) : Bool :=
  decide (participants ≤ 64) && dispatch.coldCollapseCapable &&
    !dispatch.skipColdCollapse

/-- Behind a `futexWakePrivate(2)` of a thread. -/
def behindWake : ProducerPc → Option ProducerPc
  | .drainWake site lowLatencyActive => some (.drain site lowLatencyActive)
  | .wake dispatch => some (.body dispatch false)
  | _ => none

/-! ## Guards -/

/-- The next atomic operation of a guard's constructor. -/
def stepGuard (participants : ℕ) (state : State) (index : ℕ) :
    Option (State × Option Event) :=
  match state.guards[index]? with
  | none => none
  | some guard =>
      match guard.pc with
      | .raise =>
          some ({ state with control := { state.control with
              hotSpinDepth := state.control.hotSpinDepth + 1 } }.setGuard
            index { guard with pc := .loadWord 1 }, none)
      | .loadWord slot =>
          some (state.setGuard index { guard with
            pc := .storeWord slot state.control.futexWord }, none)
      | .storeWord slot word =>
          some ((state.storeWord (word + 1)).setGuard index
            { guard with pc := .wakeAll slot }, some (.bump (word + 1)))
      | .wakeAll slot =>
          some (state.releaseAll.setGuard index
            { guard with pc := .awaitAck slot }, none)
      | .awaitAck slot =>
          if slot < participants then
            if guard.epoch ≤ (state.slots slot).hotSpinEpoch then
              some (state.setGuard index
                { guard with pc := .awaitAck (slot + 1) }, none)
            else none
          else some (state.setGuard index { guard with pc := .alive }, none)
      | .alive | .destroyed => none

/-- The constructor up to its first atomic operation; a guard on another pool
is done when the owner pointer is stored. -/
def State.engage (state : State) (thread : ℕ) (onPool : Bool) : State :=
  let owned := { state with
    lowLatencyOwner := Function.update state.lowLatencyOwner thread onPool }
  if onPool then
    { owned with
      control := { state.control with
        hotSpinEpoch := state.control.hotSpinEpoch + 1 }
      guards := state.guards ++ [⟨true, state.control.hotSpinEpoch + 1,
        state.lowLatencyOwner thread, .raise⟩] }
  else
    { owned with guards := state.guards ++
        [⟨false, 0, state.lowLatencyOwner thread, .alive⟩] }

/-- The destructor: the depth is lowered and the owner pointer restored. -/
def State.disengage (state : State) (thread index : ℕ) (guard : Guard) :
    State :=
  { state with
    control := if guard.onPool then { state.control with
        hotSpinDepth := state.control.hotSpinDepth - 1 } else state.control
    lowLatencyOwner :=
      Function.update state.lowLatencyOwner thread guard.prevOwner
    }.setGuard index { guard with pc := .destroyed }

/-! ## The pool -/

/-- What an atomic operation of a worker shows on the futex word. -/
def workerEvent (slot : ℕ) (before after : Slot) : Option Event :=
  match before.pc, after.pc with
  | .loadToken, _ => some (.token slot)
  | .wait _, .asleep => some (.slept slot)
  | _, _ => none

/-- A pool of `participants`; slot 0 belongs to the producers. -/
def pool (participants : ℕ) : Machine State Action Event where
  step state
    | .dispatch thread request =>
        if state.producer thread = .idle then
          some (state.setProducer thread
            (if request.drainsFirst then .drainProbe request
              else .lease request), none)
        else none
    | .advance thread => stepProducer participants state thread
    | .collect thread slot =>
        match state.producer thread with
        | .drain _ _ =>
            if state.coldStamped slot = true ∧
                (state.slots slot).mailbox.acked = true then
              some ({ state with
                coldStamped := Function.update state.coldStamped slot false },
                none)
            else none
        | _ => none
    | .probeDone thread slot =>
        match state.producer thread with
        | .probe dispatch pendingProbe =>
            if (state.slots slot).mailbox.withoutAck =
                dispatch.doneSentinel then
              some (state.setProducer thread
                (.probe dispatch (pendingProbe.filter (· ≠ slot))), none)
            else none
        | _ => none
    | .giveUp thread =>
        match state.producer thread with
        | .probe dispatch (_ :: _) =>
            some (state.setProducer thread (.loadWord dispatch), none)
        | _ => none
    | .cover thread =>
        match state.producer thread with
        | .join dispatch elided slot =>
            if slot < participants ∧ mayCover participants dispatch = true ∧
                tryClaimRank (state.slots slot).claimedAt
                  dispatch.generation = true then
              some ((state.setSlot slot { state.slots slot with
                  claimedAt := dispatch.generation }).setProducer thread
                (.coverBody dispatch elided slot), none)
            else none
        | _ => none
    | .wakeTwo thread released =>
        match behindWake (state.producer thread) with
        | some next =>
            if Releases participants 2 state.slots released then
              some ({ state with slots := rouseReleased state.slots released
                }.setProducer thread next, none)
            else none
        | none => none
    | .worker slot =>
        if 1 ≤ slot ∧ slot < participants then
          ((state.slots slot).advance state.control participants).map
            fun after => (state.setSlot slot after,
              workerEvent slot (state.slots slot) after)
        else none
    | .leaveSpin slot =>
        if 1 ≤ slot ∧ slot < participants then
          (state.slots slot).leaveSpin.map
            fun after => (state.setSlot slot after, none)
        else none
    | .chainWake slot released =>
        match (state.slots slot).pc with
        | .chainWake mailbox =>
            if Releases participants 2 state.slots released then
              let left := state.setSlot slot { state.slots slot with
                pc := examine (state.slots slot).lastSeen mailbox }
              some ({ left with slots := rouseReleased left.slots released }, none)
            else none
        | _ => none
    | .interrupt slot =>
        if (state.slots slot).pc = .asleep then
          some (state.setSlot slot (state.slots slot).rouse, none)
        else none
    | .engage thread onPool => some (state.engage thread onPool, none)
    | .advanceGuard index => stepGuard participants state index
    | .retryWake index =>
        match state.guards[index]? with
        | some ⟨onPool, epoch, prevOwner, .awaitAck slot⟩ =>
            some (state.setGuard index
              ⟨onPool, epoch, prevOwner, .loadWord slot⟩, none)
        | _ => none
    | .disengage thread index =>
        match state.guards[index]? with
        | some guard =>
            if guard.pc = .alive then
              some (state.disengage thread index guard, none)
            else none
        | none => none

/-- A fresh pool: no dispatch yet, no guard, no worker past its start. -/
def start : State where
  control := ⟨0, 0, 0, false⟩
  generation := 0
  coldStamped := fun _ => false
  dispatchMutex := false
  lowLatencyOwner := fun _ => false
  slots := fun _ => .fresh
  producer := fun _ => .idle
  guards := []

end Citor.ParkingPool
