import Citor.Core.Interleaving
import Citor.Dispatch.ReentrantCalls
import Citor.Dispatch.WorkerSlots

/-!
# Who works on a slot's deque

The deque of a slot has one owner, who pushes, pops and reserves without a
lock.  A thread finds its deque by the slot in its `ThreadContext`: a worker
keeps its slot for life, a producer takes slot 0 and the slots of the late
workers it covers, each under a `TlsContextScope`.  Fork-join calls made inside
a share stack frames on that deque.

Any number of threads make calls on any pools.  A thread that owns a
`LowLatencyGuard` on the pool enters its dispatch section past the mutex, so
that one producer at a time is a condition on the run.  Of a `parallelFor`'s
descriptor `workerEntry` and
`workerStateBase` are kept, the other compared fields are one value; how many
bodies a share calls is left open.
-/

namespace Citor.DequeOwners

open Interleaving
open Reentrancy (ThreadId ThreadContext PoolShape route)
open WorkerSlots (Mailbox Dispatch PoolControl tryClaimRank)

/-! ## Descriptors and calls -/

/-- `sharedParallelForDesc` of a thread, or the descriptor on the stack of its
fork-join call. -/
inductive DescId
  | shared (thread : ℕ)
  | onStack (thread : ℕ)
  deriving DecidableEq, Repr

/-- A descriptor; null is `none`.  `key` stands for the fields compared in front
of `workerEntry`, `drains` is the pool whose deques the `body` of a fork-join
call drains. -/
structure JobDescriptor where
  key : ℕ
  workerEntry : Option ℕ
  workerStateBase : Option ℕ
  drains : ℕ
  deriving DecidableEq, Repr

def JobDescriptor.fresh : JobDescriptor := ⟨0, none, none, 0⟩

/-- A `parallelFor` on a thread outside of all pools. -/
structure ForCall where
  pool : ℕ
  key : ℕ
  workerEntry : ℕ
  blockCount : ℕ
  reuseEligible : Bool
  lowLatencyActive : Bool
  deriving DecidableEq, Repr

/-- `gateSkipped` says whether the thread owns a `LowLatencyGuard` on the pool;
a `parallelFor` calls this `lowLatencyActive`. -/
inductive Call
  | parallelFor (call : ForCall)
  | forkJoin (pool nTasks : ℕ) (gateSkipped : Bool)
  deriving DecidableEq, Repr

def Call.pool : Call → ℕ
  | .parallelFor call => call.pool
  | .forkJoin pool _ _ => pool

/-- A fork-join call of one task runs it on the caller. -/
def Call.fansOut : Call → Bool
  | .parallelFor _ => true
  | .forkJoin _ nTasks _ => 2 ≤ nTasks

/-- What a call hands to the dispatch; `nTasks` is not 0 for fork-join calls. -/
structure Ticket where
  pool : ℕ
  desc : DescId
  reuseHint : Bool
  multiBlock : Bool
  lowLatencyActive : Bool
  gateSkipped : Bool
  nTasks : ℕ
  deriving DecidableEq, Repr

/-- A dispatch of a pool with its descriptor. -/
structure Job extends Dispatch where
  pool : ℕ
  desc : DescId
  deriving DecidableEq, Repr

/-! ## Frames -/

/-- Where a frame stands.  User code runs in `body`, `tail` and `task`. -/
inductive FramePc
  /-- The share of a `parallelFor` calls its bodies. -/
  | body
  /-- About to push the deferred tasks that are `left`. -/
  | push (left : ℕ)
  /-- In the inline tail. -/
  | tail
  /-- In `runForkJoinDrain`, about to pop, to steal or to return. -/
  | drain
  /-- In a task that the drain has found. -/
  | task
  deriving DecidableEq, Repr

/-- A call that is open on a thread, with the slot whose deque it works on. -/
structure Frame where
  pool : ℕ
  slot : ℕ
  pc : FramePc
  deriving DecidableEq, Repr

def FramePc.inUserCode : FramePc → Bool
  | .body | .tail | .task => true
  | .push _ | .drain => false

/-- The number of tasks of a call made inside a share. -/
def nestedTasks (shape : PoolShape) : Reentrancy.Call → ℕ
  | .forkJoin nTasks | .forkJoinAll nTasks => nTasks
  | .parallelFor first last hints =>
      (BlockArithmetic.nestedShape (last - first) shape.participants
        hints.chunk).blockCount
  | _ => 0

/-! ## Workers and producers -/

/-- Where a worker stands.  A carried mailbox is the local copy. -/
inductive WorkerPc
  | load
  | enter (mailbox : Mailbox)
  | readEntry (mailbox : Mailbox) (desc : DescId)
  | readBase (mailbox : Mailbox) (desc : DescId) (workerEntry : Option ℕ)
  /-- In a typed entry, about to fill its cache. -/
  | copy (mailbox : Mailbox)
  | claim (mailbox : Mailbox)
  /-- About to call `runActiveJob`. -/
  | run (mailbox : Mailbox)
  | share (mailbox : Mailbox)
  | stamp (mailbox : Mailbox) (coldCollapseDispatch : Bool)
  | acknowledge (mailbox : Mailbox)
  deriving DecidableEq, Repr

/-- A worker; the cache of an entry holds its `workerStateBase` once it is
primed. -/
structure Worker extends WorkerSlots.Worker DescId (Option ℕ) where
  pc : WorkerPc
  caches : ℕ → Option (Option ℕ)

/-- A background slot and its worker. -/
structure Slot extends WorkerSlots.Slot DescId where
  worker : Worker

/-- Where `drainColdStampedAcks` stands: about to load the mask, or with the
bits still to look at and those to clear. -/
inductive Look
  | load
  | scan (mask cleared : List ℕ) (stillPending : Bool)
  deriving DecidableEq, Repr

/-- Where a calling thread stands; `saved` is what the `TlsContextScope` puts
back. -/
inductive ProducerPc
  | idle
  | entryDrain (call : ForCall) (look : Look)
  | fillKey (call : ForCall)
  | fillEntry (call : ForCall) (keyMatches : Bool)
  | fillBase (call : ForCall) (keyMatches : Bool)
  | shape (call : ForCall) (keyMatches : Bool)
  /-- About to construct the `DispatchLease`. -/
  | lease (ticket : Ticket)
  /-- About to reserve room on the deque of slot 0. -/
  | reserve (ticket : Ticket)
  /-- About to push the root tasks that are `left` there. -/
  | roots (ticket : Ticket) (left : ℕ)
  | begin (ticket : Ticket)
  | drain (job : Job) (look : Look)
  | publishDesc (job : Job) (slot : ℕ)
  | publish (job : Job) (slot : ℕ)
  | record (job : Job)
  | enterSlot0 (job : Job)
  | slot0 (job : Job) (saved : ThreadContext)
  | join (job : Job) (slot : ℕ)
  | cover (job : Job) (slot : ℕ) (saved : ThreadContext)
  | coverStamp (job : Job) (slot : ℕ)
  | coverMark (job : Job) (slot : ℕ)
  | release (pool : ℕ)
  deriving DecidableEq, Repr

/-- `gate` is the producer between the constructor and the destructor of a
pool's `DispatchLease`, `mutex` the one that holds `m_dispatchMutex`. -/
structure State where
  producers : ℕ → ProducerPc
  gate : ℕ → Option ℕ
  mutex : ℕ → Option ℕ
  pools : ℕ → PoolControl DescId
  descs : DescId → JobDescriptor
  slots : ℕ × ℕ → Slot
  contexts : ThreadId → ThreadContext
  frames : ThreadId → List Frame

/-! ## Updates -/

section Updates

variable (state : State)

def State.at (thread : ℕ) (pc : ProducerPc) : State :=
  { state with producers := Function.update state.producers thread pc }

def State.setGate (pool : ℕ) (holder : Option ℕ) : State :=
  { state with gate := Function.update state.gate pool holder }

def State.setMutex (pool : ℕ) (holder : Option ℕ) : State :=
  { state with mutex := Function.update state.mutex pool holder }

def State.setPool (pool : ℕ) (control : PoolControl DescId) : State :=
  { state with pools := Function.update state.pools pool control }

def State.setDesc (desc : DescId) (contents : JobDescriptor) : State :=
  { state with descs := Function.update state.descs desc contents }

def State.setSlot (pool slot : ℕ) (contents : Slot) : State :=
  { state with slots := Function.update state.slots (pool, slot) contents }

def State.setContext (thread : ThreadId) (context : ThreadContext) : State :=
  { state with contexts := Function.update state.contexts thread context }

def State.setFrames (thread : ThreadId) (frames : List Frame) : State :=
  { state with frames := Function.update state.frames thread frames }

end Updates

def Slot.at (slot : Slot) (pc : WorkerPc) : Slot :=
  { slot with worker := { slot.worker with pc := pc } }

/-- The fetch-and on `m_coldStampedMask`. -/
def State.clearStamps (state : State) (pool : ℕ) (cleared : List ℕ) : State :=
  { state with
    slots := fun id =>
      if id.1 = pool ∧ id.2 ∈ cleared then
        { state.slots id with coldStamped := false }
      else state.slots id }

/-! ## A worker's steps -/

section WorkerSteps

/-- The array that the cached entry claims ranks in. -/
def Worker.workerStateBase (worker : Worker) : Option ℕ :=
  worker.cachedWorkerEntry.bind fun entry => (worker.caches entry).join

/-- The pool whose claim word the entry goes for. -/
def Worker.claims (worker : Worker) (mailbox : Mailbox) : Option ℕ :=
  if mailbox.skipClaim then none else worker.workerStateBase

/-- The untyped or the typed entry, with or without the copy. -/
def Worker.enterEntry (worker : Worker) (mailbox : Mailbox) : WorkerPc :=
  match worker.cachedWorkerEntry with
  | none => .run mailbox
  | some entry =>
      if !mailbox.reuse || (worker.caches entry).isNone then .copy mailbox
      else .claim mailbox

/-- The share begins with the frame of what it runs. -/
def State.startShare (state : State) (pool rank : ℕ) (mailbox : Mailbox)
    (frame : Frame) : State :=
  (state.setSlot pool rank
    ((state.slots (pool, rank)).at (.share mailbox))).setFrames
      (.worker pool rank) [frame]

/-- The next operation of the worker of a slot. -/
def State.workerStep (state : State) (pool rank : ℕ) : Option State :=
  let slot := state.slots (pool, rank)
  let worker := slot.worker
  match worker.pc with
  | .load =>
      if slot.mailbox.seenPhase ≠ worker.lastSeen.seenPhase then
        some (state.setSlot pool rank (slot.at (.enter slot.mailbox)))
      else none
  | .enter mailbox =>
      match worker.chooseDesc slot.toSlot mailbox with
      | none =>
          some (state.setSlot pool rank (slot.at (.stamp mailbox false)))
      | some desc =>
          if !mailbox.reuse || some desc ≠ worker.cachedDesc then
            some (state.setSlot pool rank (slot.at (.readEntry mailbox desc)))
          else some (state.setSlot pool rank
            (slot.at (worker.enterEntry mailbox)))
  | .readEntry mailbox desc =>
      some (state.setSlot pool rank
        (slot.at (.readBase mailbox desc (state.descs desc).workerEntry)))
  | .readBase mailbox desc workerEntry =>
      let refreshed :=
        { worker with
          cachedDesc := some desc
          cachedWorkerEntry := workerEntry
          cachedColdCollapse := (state.descs desc).workerStateBase.isSome }
      some (state.setSlot pool rank
        { slot with
          worker := { refreshed with pc := refreshed.enterEntry mailbox } })
  | .copy mailbox =>
      match worker.cachedDesc, worker.cachedWorkerEntry with
      | some desc, some entry =>
          some (state.setSlot pool rank
            { slot with
              worker :=
                { worker with
                  pc := .claim mailbox
                  caches := Function.update worker.caches entry
                    (some (state.descs desc).workerStateBase) } })
      | _, _ => none
  | .claim mailbox =>
      match worker.claims mailbox with
      | none => some (state.startShare pool rank mailbox ⟨pool, rank, .body⟩)
      | some target =>
          let other := state.slots (target, rank)
          if tryClaimRank other.claimedAt mailbox.generation then
            let claimed := state.setSlot target rank
              { other with claimedAt := mailbox.generation }
            some (claimed.startShare pool rank mailbox ⟨pool, rank, .body⟩)
          else some (state.setSlot pool rank
            (slot.at (.stamp mailbox (worker.coldCollapseDispatch mailbox))))
  | .run mailbox =>
      worker.cachedDesc.map fun desc =>
        state.startShare pool rank mailbox
          ⟨(state.descs desc).drains, rank, .drain⟩
  | .share mailbox =>
      if state.frames (.worker pool rank) = [] then
        some (state.setSlot pool rank
          (slot.at (.stamp mailbox (worker.coldCollapseDispatch mailbox))))
      else none
  | .stamp mailbox coldCollapseDispatch =>
      match mailbox.stampDone slot.mailbox coldCollapseDispatch with
      | some stamped =>
          some (state.setSlot pool rank
            { slot with
              mailbox := stamped
              worker := { worker with pc := .load, lastSeen := stamped } })
      | none => some (state.setSlot pool rank (slot.at (.acknowledge mailbox)))
  | .acknowledge mailbox =>
      some (state.setSlot pool rank
        { slot with
          mailbox := slot.mailbox.withAck
          worker :=
            { worker with pc := .load, lastSeen := mailbox.doneAcked } })

end WorkerSteps

/-! ## A producer's steps -/

section ProducerSteps

variable (shapes : ℕ → PoolShape)

/-- One operation of the drain at a pool; `none` ends it. -/
def State.drainStep (state : State) (pool : ℕ) : Look → State × Option Look
  | .load =>
      let mask := (List.range (shapes pool).participants).filter fun slot =>
        (state.slots (pool, slot)).coldStamped
      (state, if mask = [] then none else some (.scan mask [] false))
  | .scan (slot :: mask) cleared stillPending =>
      if (state.slots (pool, slot)).mailbox.acked then
        (state, some (.scan mask (slot :: cleared) stillPending))
      else (state, some (.scan mask cleared true))
  | .scan [] cleared stillPending =>
      (state.clearStamps pool cleared,
        if stillPending then some .load else none)

/-- What a call does first. -/
def Call.start (thread : ℕ) : Call → ProducerPc
  | .parallelFor call => .entryDrain call .load
  | .forkJoin pool nTasks gateSkipped =>
      .lease ⟨pool, .onStack thread, false, false, false, gateSkipped, nTasks⟩

def ForCall.ticket (call : ForCall) (thread : ℕ) (keyMatches : Bool) :
    Ticket where
  pool := call.pool
  desc := .shared thread
  reuseHint := call.reuseEligible && keyMatches
  multiBlock := (shapes call.pool).participants < call.blockCount
  lowLatencyActive := call.lowLatencyActive
  gateSkipped := call.lowLatencyActive
  nTasks := 0

/-- Behind the constructor of the lease. -/
def Ticket.leased (ticket : Ticket) : ProducerPc :=
  if ticket.nTasks = 0 then .begin ticket
  else if 64 < ticket.nTasks then .reserve ticket
  else .roots ticket ticket.nTasks

/-- The head of `dispatchOneStaticLockedBody`. -/
def State.dispatch (state : State) (ticket : Ticket) : Job where
  toDispatch := (state.pools ticket.pool).dispatch
    (shapes ticket.pool).participants ticket.desc ticket.reuseHint
    ticket.multiBlock ticket.lowLatencyActive
    (state.descs ticket.desc).workerStateBase.isSome
  pool := ticket.pool
  desc := ticket.desc

/-- The publish loop at a slot. -/
def Job.publishFrom (job : Job) (slot : ℕ) : ProducerPc :=
  if slot < (shapes job.pool).participants then
    if job.reuseSafe then .publish job slot else .publishDesc job slot
  else if job.reuseSafe then .enterSlot0 job
  else .record job

/-- What slot 0 runs. -/
def State.slot0Frame (state : State) (job : Job) : Frame :=
  match job.desc with
  | .shared _ => ⟨job.pool, 0, .body⟩
  | .onStack _ => ⟨(state.descs job.desc).drains, 0, .drain⟩

/-- The constructor of a `TlsContextScope` and the frame behind it. -/
def State.enterScope (state : State) (thread pool slot : ℕ) (frame : Frame) :
    State :=
  (state.setContext (.producer thread) ⟨slot, true, some pool⟩).setFrames
    (.producer thread) [frame]

/-- The next operation of a calling thread. -/
def State.producerStep (state : State) (thread : ℕ) : Option State :=
  let own := ThreadId.producer thread
  match state.producers thread with
  | .idle => none
  | .entryDrain call look =>
      let (after, next) := state.drainStep shapes call.pool look
      some (after.at thread (next.elim (.fillKey call) (.entryDrain call)))
  | .fillKey call =>
      let desc := state.descs (.shared thread)
      if desc.key = call.key then
        some (state.at thread (.fillEntry call true))
      else
        some ((state.setDesc (.shared thread)
          { desc with key := call.key }).at thread (.fillEntry call false))
  | .fillEntry call keyMatches =>
      let desc := state.descs (.shared thread)
      if desc.workerEntry = some call.workerEntry then
        some (state.at thread (.fillBase call keyMatches))
      else
        some ((state.setDesc (.shared thread)
          { desc with workerEntry := some call.workerEntry }).at thread
            (.fillBase call false))
  | .fillBase call keyMatches =>
      let desc := state.descs (.shared thread)
      if desc.workerStateBase = some call.pool then
        some (state.at thread (.shape call keyMatches))
      else
        some ((state.setDesc (.shared thread)
          { desc with workerStateBase := some call.pool }).at thread
            (.shape call false))
  | .shape call keyMatches =>
      if call.blockCount ≤ 1 then some (state.at thread .idle)
      else some (state.at thread (.lease (call.ticket shapes thread keyMatches)))
  | .lease ticket =>
      let entered := (state.setGate ticket.pool (some thread)).at thread
        ticket.leased
      if ticket.gateSkipped then some entered
      else if state.mutex ticket.pool = none then
        some (entered.setMutex ticket.pool (some thread))
      else none
  | .reserve ticket => some (state.at thread (.roots ticket ticket.nTasks))
  | .roots ticket (left + 1) => some (state.at thread (.roots ticket left))
  | .roots ticket 0 =>
      some ((state.setDesc ticket.desc ⟨0, none, none, ticket.pool⟩).at thread
        (.begin ticket))
  | .begin ticket =>
      let job := state.dispatch shapes ticket
      some ((state.setPool ticket.pool
          { state.pools ticket.pool with generation := job.generation }).at
        thread (.drain job .load))
  | .drain job look =>
      let (after, next) := state.drainStep shapes job.pool look
      some (after.at thread (next.elim (job.publishFrom shapes 1) (.drain job)))
  | .publishDesc job slot =>
      let contents := state.slots (job.pool, slot)
      some ((state.setSlot job.pool slot
          { contents with mailboxDesc := some job.desc }).at thread
        (.publish job slot))
  | .publish job slot =>
      let contents := state.slots (job.pool, slot)
      some ((state.setSlot job.pool slot
          { contents with mailbox := job.publishedMb }).at thread
        (job.publishFrom shapes (slot + 1)))
  | .record job =>
      some ((state.setPool job.pool
          { state.pools job.pool with lastPublishedDesc := some job.desc }).at
        thread (.enterSlot0 job))
  | .enterSlot0 job =>
      some ((state.enterScope thread job.pool 0 (state.slot0Frame job)).at
        thread (.slot0 job (state.contexts own)))
  | .slot0 job saved =>
      if state.frames own = [] then
        some ((state.setContext own saved).at thread (.join job 1))
      else none
  | .join job slot =>
      if slot < (shapes job.pool).participants then
        if (state.slots (job.pool, slot)).mailbox.withoutAck =
            job.doneSentinelMb then
          some (state.at thread (.join job (slot + 1)))
        else none
      else some (state.at thread (.release job.pool))
  | .cover job slot saved =>
      if state.frames own = [] then
        some ((state.setContext own saved).at thread (.coverStamp job slot))
      else none
  | .coverStamp job slot =>
      let contents := state.slots (job.pool, slot)
      if contents.mailbox = job.publishedMb then
        some ((state.setSlot job.pool slot
            { contents with mailbox := job.doneSentinelMb }).at thread
          (if job.reuseSafe then .join job (slot + 1) else .coverMark job slot))
      else some (state.at thread (.join job (slot + 1)))
  | .coverMark job slot =>
      let contents := state.slots (job.pool, slot)
      some ((state.setSlot job.pool slot
          { contents with coldStamped := true }).at thread
        (.join job (slot + 1)))
  | .release pool =>
      let left := (state.setGate pool none).at thread .idle
      some (if state.mutex pool = some thread then left.setMutex pool none
        else left)

/-- The claim of a late worker's rank, made while the producer waits for the
slot. -/
def State.coverStep (state : State) (thread : ℕ) : Option State :=
  match state.producers thread with
  | .join job slot =>
      let contents := state.slots (job.pool, slot)
      if slot < (shapes job.pool).participants ∧
          (shapes job.pool).participants ≤ 64 ∧
          job.skipColdCollapse = false ∧
          (state.descs job.desc).workerStateBase ≠ none ∧
          tryClaimRank contents.claimedAt job.generation = true then
        some (((state.setSlot job.pool slot
            { contents with claimedAt := job.generation }).enterScope thread
              job.pool slot ⟨job.pool, slot, .body⟩).at thread
          (.cover job slot (state.contexts (.producer thread))))
      else none
  | _ => none

end ProducerSteps

/-! ## Calls inside a share -/

section Frames

/-- User code makes a call on a pool that takes the nested path. -/
def State.nest (shapes : ℕ → PoolShape) (state : State) (thread : ThreadId)
    (pool : ℕ) (call : Reentrancy.Call) : Option State :=
  let context := state.contexts thread
  match state.frames thread with
  | frame :: rest =>
      if frame.pc.inUserCode = true ∧
          route (shapes pool) pool context call = .nested then
        some (state.setFrames thread
          (⟨pool, context.slot,
            .push (nestedTasks (shapes pool) call - 1)⟩ :: frame :: rest))
      else none
  | [] => none

/-- What the innermost frame does next, but for the choices of the drain. -/
def FramePc.advance : FramePc → Option FramePc
  | .push (left + 1) => some (.push left)
  | .push 0 => some .tail
  | .tail | .task => some .drain
  | .body | .drain => none

def State.advance (state : State) (thread : ThreadId) : Option State :=
  match state.frames thread with
  | frame :: rest => frame.pc.advance.map fun pc =>
      state.setFrames thread ({ frame with pc := pc } :: rest)
  | [] => none

/-- The drain has popped or stolen a task. -/
def State.take (state : State) (thread : ThreadId) : Option State :=
  match state.frames thread with
  | ⟨pool, slot, .drain⟩ :: rest =>
      some (state.setFrames thread (⟨pool, slot, .task⟩ :: rest))
  | _ => none

/-- The drain returns, or the share has called its last body. -/
def State.leave (state : State) (thread : ThreadId) : Option State :=
  match state.frames thread with
  | ⟨_, _, .drain⟩ :: rest | ⟨_, _, .body⟩ :: rest =>
      some (state.setFrames thread rest)
  | _ => none

end Frames

/-! ## The machine -/

inductive Action
  | call (thread : ℕ) (call : Call)
  | producer (thread : ℕ)
  | cover (thread : ℕ)
  | worker (pool slot : ℕ)
  | nest (thread : ThreadId) (pool : ℕ) (call : Reentrancy.Call)
  | advance (thread : ThreadId)
  | take (thread : ThreadId)
  | leave (thread : ThreadId)

/-- The workers a pool has. -/
def HasWorker (shapes : ℕ → PoolShape) (pool slot : ℕ) : Prop :=
  0 < slot ∧ slot < (shapes pool).participants

instance (shapes : ℕ → PoolShape) (pool slot : ℕ) :
    Decidable (HasWorker shapes pool slot) :=
  inferInstanceAs (Decidable (_ ∧ _))

def step (shapes : ℕ → PoolShape) (state : State) : Action → Option State
  | .call thread call =>
      if state.producers thread = .idle ∧
          Reentrancy.shouldFallThroughCrossArena call.pool
            (state.contexts (.producer thread)) = false ∧
          1 < (shapes call.pool).participants ∧ call.fansOut = true then
        some (state.at thread (call.start thread))
      else none
  | .producer thread => state.producerStep shapes thread
  | .cover thread => state.coverStep shapes thread
  | .worker pool slot =>
      if HasWorker shapes pool slot then state.workerStep pool slot else none
  | .nest thread pool call => state.nest shapes thread pool call
  | .advance thread => state.advance thread
  | .take thread => state.take thread
  | .leave thread => state.leave thread

/-- Producers and workers of all pools, in any interleaving. -/
def machine (shapes : ℕ → PoolShape) : Machine State Action Empty where
  step state action := (step shapes state action).map fun after => (after, none)

def Worker.fresh : Worker where
  toWorker := .fresh none
  pc := .load
  caches := fun _ => none

def Slot.fresh : Slot where
  toSlot := .fresh
  worker := .fresh

def start : State where
  producers := fun _ => .idle
  gate := fun _ => none
  mutex := fun _ => none
  pools := fun _ => ⟨0, none⟩
  descs := fun _ => .fresh
  slots := fun _ => .fresh
  contexts := ThreadId.home
  frames := fun _ => []

/-! ## What a run should keep -/

/-- The pool on whose slot 0 a producer puts its root tasks. -/
def ProducerPc.rooting : ProducerPc → Option ℕ
  | .reserve ticket | .roots ticket _ => some ticket.pool
  | _ => none

/-- A thread works on a deque as its owner, or will: it has a frame there, runs
user code or a drain under the slot's context, or puts root tasks on slot 0. -/
def State.Owns (state : State) (thread : ThreadId) (pool slot : ℕ) : Prop :=
  (∃ frame ∈ state.frames thread, frame.pool = pool ∧ frame.slot = slot) ∨
  (state.frames thread ≠ [] ∧
    state.contexts thread = ⟨slot, true, some pool⟩) ∨
  ∃ index, thread = .producer index ∧
    (state.producers index).rooting = some pool ∧ slot = 0

def State.SingleOwner (state : State) : Prop :=
  ∀ {thread other pool slot}, state.Owns thread pool slot →
    state.Owns other pool slot → thread = other

/-! ## The condition on shares -/

/-- The dispatch of a producer that has not joined a slot yet. -/
def ProducerPc.pending (slot : ℕ) : ProducerPc → Option Job
  | .drain job _ | .publishDesc job _ | .publish job _ | .record job
  | .enterSlot0 job | .slot0 job _ => some job
  | .join job next => if next ≤ slot then some job else none
  | .cover job next _ | .coverStamp job next | .coverMark job next =>
      if next < slot then some job else none
  | _ => none

def State.pending (state : State) (pool slot : ℕ) : Option Job :=
  (state.gate pool).bind fun thread =>
    (state.producers thread).pending slot

/-- The worker runs the dispatch its pool is in, which waits for it: there is no
array to claim its rank in. -/
def State.awaited (state : State) (pool slot : ℕ) : Bool :=
  (state.pending pool slot).any fun job =>
    (state.slots (pool, slot)).worker.cachedDesc = some job.desc &&
      (state.descs job.desc).workerStateBase.isNone

/-- A share may begin: its word says that nobody covers it, or it is claimed on
the worker's own pool, or the worker is awaited. -/
def State.mayShare (state : State) (pool slot : ℕ) : Bool :=
  let worker := (state.slots (pool, slot)).worker
  match worker.pc with
  | .claim mailbox =>
      mailbox.skipClaim ||
        match worker.workerStateBase with
        | some target =>
            target = pool ||
              !tryClaimRank (state.slots (target, slot)).claimedAt
                mailbox.generation
        | none => state.awaited pool slot
  | .run _ => state.awaited pool slot
  | _ => true

/-- No share begins without its rank. -/
def SharesGuarded (state : State) : Action → Prop
  | .worker pool slot => state.mayShare pool slot = true
  | _ => True

instance (state : State) : DecidablePred (SharesGuarded state)
  | .worker _ _ => inferInstanceAs (Decidable (_ = true))
  | .call .. | .producer _ | .cover _ | .nest .. | .advance _ | .take _
  | .leave _ => isTrue trivial

/-! ## The condition on the section -/

/-- The pool whose dispatch section a producer is about to enter. -/
def ProducerPc.enters : ProducerPc → Option ℕ
  | .lease ticket => some ticket.pool
  | _ => none

/-- A producer enters the dispatch section of a pool only while nobody else is
in it. -/
def SectionsApart (state : State) : Action → Prop
  | .producer thread => ∀ pool ∈ (state.producers thread).enters,
      state.gate pool = none
  | _ => True

instance (state : State) : DecidablePred (SectionsApart state)
  | .producer _ => inferInstanceAs (Decidable (∀ _ ∈ _, _))
  | .call .. | .cover _ | .worker .. | .nest .. | .advance _ | .take _
  | .leave _ => isTrue trivial

/-- Sections keep apart, and no share begins without its rank. -/
def OwnersGuarded (state : State) (action : Action) : Prop :=
  SectionsApart state action ∧ SharesGuarded state action

instance (state : State) : DecidablePred (OwnersGuarded state) := fun _ =>
  inferInstanceAs (Decidable (_ ∧ _))

end Citor.DequeOwners
