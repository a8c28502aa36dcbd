import Citor.Core.Interleaving
import Citor.Dispatch.WorkerSlots
import Citor.Engine.BlockArithmetic
import Citor.Engine.BlockRunners

/-!
# Descriptors, mailboxes and the workers' caches

A typed `parallelFor` or `parallelReduce` writes its parameters into a
thread-local descriptor, publishes it to the workers of one pool through their
mailboxes, runs rank 0 and joins.  Workers copy the descriptor into a cache of
their own; a publication with the reuse bit makes them skip the copy.  Where the
descriptor names the pool's worker array, the producer may run a late worker's
rank itself, after a race on the rank's claim word.

Calls are made one after another, by any threads on any pools; the workers of
all pools run at their own pace.  Every step is one atomic operation, or one
plain read or write of a descriptor field.  Spinning and parking only repeat
the load of the mailbox and are not modelled.
-/

namespace Citor.JobCaches

open Interleaving
open BlockArithmetic (BlockShape fillBlockShape)
open BlockRunners (Balance RankPc nextTypedBlock singleRankBlock nextSpanBlock)
open WorkerSlots (Mailbox Dispatch PoolControl tryClaimRank)

/-! ## Programs and calls -/

/-- The two primitives that keep a thread-local descriptor. -/
inductive Primitive
  | parallelFor
  | parallelReduce
  deriving DecidableEq, Repr

/-- The worker entries: `typedWorkerEntry` for the two balances, and
`typedStaticContiguousWorkerEntry`. -/
inductive EntryKind
  | typed (balance : Balance)
  | contiguous
  deriving DecidableEq, Repr

/-- An instantiation of a worker entry, and what its hints and its body's type
decide at compile time.  `cache` names the `cachedTypedForSlot` of the hints
and the body's type. -/
structure Entry where
  kind : EntryKind
  chunk : ℕ
  priority : ℕ
  cancellationActive : Bool
  bodyNoexcept : Bool
  cache : ℕ
  deriving DecidableEq, Repr

/-- What is fixed while the calls are made: the entry at each address, the
number of pools, and the participants of each. -/
structure Program where
  entries : ℕ → Entry
  pools : ℕ
  participants : ℕ → ℕ
  participants_pos : ∀ pool, 0 < participants pool

/-- The fields of `JobDescriptor` that the two primitives write. -/
inductive Field
  | first
  | last
  | participants
  | balance
  | priority
  | preWakeCompletionProbe
  | token
  | fnPtr
  | workerEntry
  | workerStateBase
  | chunk
  | blockCount
  deriving DecidableEq, Repr

/-- Field values: pointers, enumerators and flags are numbers, null and the
default are `0`. -/
abbrev Fields := Field → ℕ

/-- A descriptor: its fields and the shared block counter. -/
structure JobDescriptor where
  fields : Fields
  nextBlock : ℕ

/-- `sharedParallelForDesc` and `sharedReduceDesc` of a thread. -/
structure DescId where
  thread : ℕ
  primitive : Primitive
  deriving DecidableEq, Repr

/-- A call.  The reducer passes its own `chunk` and `blockCount`;
`lvalue` says whether the callable was passed as an lvalue. -/
structure Call where
  thread : ℕ
  pool : ℕ
  workerEntry : ℕ
  fnPtr : ℕ
  first : ℕ
  last : ℕ
  chunk : ℕ
  blockCount : ℕ
  token : ℕ
  lvalue : Bool
  lowLatency : Bool
  deriving DecidableEq, Repr

section Calls

variable (program : Program) (call : Call)

def Call.entry : Entry := program.entries call.workerEntry

def Call.primitive : Primitive :=
  match (call.entry program).kind with
  | .typed _ => .parallelFor
  | .contiguous => .parallelReduce

def Call.desc : DescId := ⟨call.thread, call.primitive program⟩

def Call.participants : ℕ := program.participants call.pool

/-- The block shape: `fillBlockShape` for `parallelFor`, the reducer's own for
`parallelReduce`. -/
def Call.shape : BlockShape :=
  let entry := call.entry program
  match entry.kind with
  | .typed balance =>
      fillBlockShape (call.last - call.first) (call.participants program)
        entry.chunk (balance = .dynamicChunked)
  | .contiguous => ⟨call.chunk, call.blockCount⟩

/-- The value the call wants in a field. -/
def Call.value : Fields
  | .first => call.first
  | .last => call.last
  | .participants => call.participants program
  | .balance =>
      if (call.entry program).kind = .typed .dynamicChunked then 1 else 0
  | .priority => (call.entry program).priority
  | .preWakeCompletionProbe => 1
  | .token => call.token
  | .fnPtr => call.fnPtr
  | .workerEntry => call.workerEntry
  | .workerStateBase =>
      if call.primitive program = .parallelFor then call.pool + 1 else 0
  | .chunk => (call.shape program).chunk
  | .blockCount => (call.shape program).blockCount

/-- The fields the call compares and stores, in source order. -/
def Call.guarded : List Field :=
  let entry := call.entry program
  let token := if entry.cancellationActive then [Field.token] else []
  match entry.kind with
  | .typed .staticUniform =>
      [.first, .last, .participants, .priority, .preWakeCompletionProbe] ++
        token ++ [.fnPtr, .workerEntry, .workerStateBase]
  | .typed .dynamicChunked =>
      [.first, .last, .participants, .balance, .priority,
        .preWakeCompletionProbe] ++
        token ++ [.fnPtr, .workerEntry, .workerStateBase]
  | .contiguous =>
      [.first, .last, .participants, .balance, .priority,
        .preWakeCompletionProbe, .chunk, .blockCount, .fnPtr, .workerEntry,
        .workerStateBase] ++ token

/-- `kReuseEligible`, and `!kCancellationActive` for the reducer. -/
def Call.reuseEligible : Bool :=
  let entry := call.entry program
  match entry.kind with
  | .typed _ =>
      call.lvalue && entry.bodyNoexcept && !entry.cancellationActive
  | .contiguous => !entry.cancellationActive

end Calls

/-- The fields an entry copies into its cache, in source order. -/
def EntryKind.copied : EntryKind → List Field
  | .typed _ =>
      [.blockCount, .participants, .chunk, .first, .last, .fnPtr,
        .workerStateBase]
  | .contiguous =>
      [.blockCount, .participants, .chunk, .first, .last, .fnPtr]

/-- `nextTypedBlock` behind the single-block fast path, and the loop of the
contiguous runner; slot 0, the workers and the covering producer share them. -/
def EntryKind.nextBlockId (kind : EntryKind)
    (blockCount participants rank : ℕ) (prevIdx : Option ℕ)
    (nextBlock : ℕ) : Option ℕ × ℕ :=
  match kind with
  | .typed balance =>
      if blockCount ≤ participants then
        (singleRankBlock blockCount rank prevIdx, nextBlock)
      else
        nextTypedBlock balance blockCount participants rank prevIdx nextBlock
  | .contiguous =>
      (nextSpanBlock blockCount participants rank prevIdx, nextBlock)

/-- The job parameters a share is run with. -/
structure Params where
  workerEntry : ℕ
  fnPtr : ℕ
  first : ℕ
  last : ℕ
  chunk : ℕ
  blockCount : ℕ
  participants : ℕ
  deriving DecidableEq, Repr

/-- The parameters read from fields, under an entry. -/
def Fields.params (fields : Fields) (workerEntry : ℕ) : Params where
  workerEntry := workerEntry
  fnPtr := fields .fnPtr
  first := fields .first
  last := fields .last
  chunk := fields .chunk
  blockCount := fields .blockCount
  participants := fields .participants

/-- The parameters of a call. -/
def Call.params (program : Program) (call : Call) : Params :=
  (call.value program).params call.workerEntry

/-! ## Mailboxes, workers and the producer -/

/-- `CachedTypedForJob`. -/
structure CachedTypedForJob where
  fields : Fields
  primed : Bool

/-- Where a worker stands.  A carried mailbox is the local copy. -/
inductive WorkerPc
  /-- About to load the mailbox and compare its phase. -/
  | load
  /-- A new phase: about to choose the descriptor. -/
  | enter (mailbox : Mailbox)
  /-- About to read `desc->workerEntry`. -/
  | readEntry (mailbox : Mailbox) (desc : DescId)
  /-- About to read `desc->workerStateBase`. -/
  | readBase (mailbox : Mailbox) (desc : DescId) (workerEntry : ℕ)
  /-- In the worker entry: the fields still to copy into its cache. -/
  | copy (mailbox : Mailbox) (remaining : List Field)
  /-- About to claim the rank, if the entry claims. -/
  | claim (mailbox : Mailbox)
  /-- In the share. -/
  | body (mailbox : Mailbox) (place : RankPc)
  /-- About to stamp the mailbox, by a compare-exchange under
  `coldCollapseDispatch`. -/
  | stamp (mailbox : Mailbox) (coldCollapseDispatch : Bool)
  /-- The stamp was lost: about to set `kAckedBit`. -/
  | acknowledge (mailbox : Mailbox)
  deriving DecidableEq, Repr

/-- A worker thread: the locals of `workerMainLoop` and the thread-local
caches. -/
structure Worker extends WorkerSlots.Worker DescId ℕ where
  pc : WorkerPc
  caches : ℕ → CachedTypedForJob

/-- A background slot and its worker. -/
structure Slot extends WorkerSlots.Slot DescId where
  worker : Worker

/-- Where the calling thread stands in its call. -/
inductive ProducerPc
  | idle
  /-- In `drainColdStampedAcks`. -/
  | entryDrain (call : Call)
  /-- The fields still to compare and store. -/
  | fill (call : Call) (remaining : List Field) (keyMatches : Bool)
  /-- In `fillBlockShape`. -/
  | shape (call : Call) (remaining : List Field) (keyMatches : Bool)
  /-- About to set `nextBlock` and to look for a single block. -/
  | counter (call : Call) (keyMatches : Bool)
  /-- At the top of `dispatchOneStaticLockedBody`. -/
  | begin (call : Call) (reuseHint : Bool)
  /-- In front of the publish loop, waiting for acknowledgements. -/
  | drain (call : Call) (dispatch : Dispatch)
  /-- About to store `mailboxDesc` of a slot. -/
  | publishDesc (call : Call) (dispatch : Dispatch) (slot : ℕ)
  /-- About to store the mailbox of a slot. -/
  | publish (call : Call) (dispatch : Dispatch) (slot : ℕ)
  /-- About to store `m_lastPublishedDesc`. -/
  | record (call : Call) (dispatch : Dispatch)
  /-- About to run rank 0. -/
  | enterSlot0 (call : Call) (dispatch : Dispatch)
  | slot0 (call : Call) (dispatch : Dispatch) (place : RankPc)
  /-- Waiting for a slot. -/
  | join (call : Call) (dispatch : Dispatch) (slot : ℕ)
  /-- Running a late worker's rank. -/
  | cover (call : Call) (dispatch : Dispatch) (slot : ℕ) (place : RankPc)
  /-- About to stamp the covered slot's mailbox. -/
  | coverStamp (call : Call) (dispatch : Dispatch) (slot : ℕ)
  /-- About to set the slot's cold-stamped bit. -/
  | coverMark (call : Call) (dispatch : Dispatch) (slot : ℕ)
  deriving DecidableEq, Repr

/-- A publication that carried its descriptor. -/
structure Job where
  generation : ℕ
  call : Call

/-- The state.  The last two components are histories that no step reads: the
pool each descriptor was last filled for, and the last full publication of each
pool. -/
structure State where
  producer : ProducerPc
  descs : DescId → JobDescriptor
  pools : ℕ → PoolControl DescId
  slots : ℕ × ℕ → Slot
  filledFor : DescId → Option ℕ
  published : ℕ → Job

/-- What a run shows. -/
inductive Event
  /-- The dispatch of a call takes its generation. -/
  | called (pool generation : ℕ) (call : Call)
  /-- A worker reads a descriptor field for the generation it carries. -/
  | read (pool slot generation : ℕ) (field : Field) (value : ℕ)
  /-- A rank's share begins; `claimedOn` is the pool whose claim word was
  taken for it. -/
  | entered (pool generation rank : ℕ) (params : Params)
      (claimedOn : Option ℕ)
  /-- A block is run. -/
  | ran (pool generation rank blockId : ℕ) (params : Params)
  /-- A share is left early, at a check or because its body threw. -/
  | left (pool generation rank : ℕ)
  | returned (pool generation : ℕ)
  deriving DecidableEq, Repr

/-! ## Updates -/

def State.setSlot (state : State) (pool slot : ℕ) (contents : Slot) : State :=
  { state with slots := Function.update state.slots (pool, slot) contents }

def State.setDesc (state : State) (desc : DescId)
    (contents : JobDescriptor) : State :=
  { state with descs := Function.update state.descs desc contents }

def JobDescriptor.store (desc : JobDescriptor) (field : Field) (value : ℕ) :
    JobDescriptor :=
  { desc with fields := Function.update desc.fields field value }

def State.at (state : State) (pc : ProducerPc) : State :=
  { state with producer := pc }

def Slot.at (slot : Slot) (pc : WorkerPc) : Slot :=
  { slot with worker := { slot.worker with pc := pc } }

/-! ## A worker's steps -/

section WorkerSteps

variable (program : Program)

/-- The entry the worker has cached, and its cache. -/
def Worker.entry (worker : Worker) : Entry :=
  program.entries worker.cachedWorkerEntry

def Worker.cache (worker : Worker) : CachedTypedForJob :=
  worker.caches (worker.entry program).cache

/-- The first test of the worker entry: copy unless the publication is a reuse
and the cache primed. -/
def Worker.enterEntry (worker : Worker) (mailbox : Mailbox) : WorkerPc :=
  if mailbox.reuse && (worker.cache program).primed then .claim mailbox
  else .copy mailbox (worker.entry program).kind.copied

/-- The pool whose claim words the entry uses, if it claims. -/
def Worker.claims (worker : Worker) (mailbox : Mailbox) : Option ℕ :=
  match (worker.entry program).kind with
  | .typed _ =>
      let base := (worker.cache program).fields .workerStateBase
      if mailbox.skipClaim || base = 0 then none else some (base - 1)
  | .contiguous => none

/-- The parameters the worker runs its share with. -/
def Worker.params (worker : Worker) : Params :=
  (worker.cache program).fields.params worker.cachedWorkerEntry

/-- A field copied into the cache. -/
def Worker.copyField (worker : Worker) (field : Field) (value : ℕ) : Worker :=
  let cache := worker.cache program
  { worker with
    caches := Function.update worker.caches (worker.entry program).cache
      { cache with fields := Function.update cache.fields field value } }

def Worker.prime (worker : Worker) : Worker :=
  { worker with
    caches := Function.update worker.caches (worker.entry program).cache
      { worker.cache program with primed := true } }

/-- The end of a share: the loop found no block. -/
def Slot.placeAt (slot : Slot) (mailbox : Mailbox) (place : RankPc) : Slot :=
  if place = .returned then
    slot.at (.stamp mailbox (slot.worker.coldCollapseDispatch mailbox))
  else slot.at (.body mailbox place)

/-- The next operation of the worker of a slot. -/
def State.workerStep (state : State) (pool rank : ℕ) :
    Option (State × Option Event) :=
  let slot := state.slots (pool, rank)
  let worker := slot.worker
  match worker.pc with
  | .load =>
      if slot.mailbox.seenPhase ≠ worker.lastSeen.seenPhase then
        some (state.setSlot pool rank (slot.at (.enter slot.mailbox)), none)
      else some (state, none)
  | .enter mailbox =>
      match worker.chooseDesc slot.toSlot mailbox with
      | none => some (state.setSlot pool rank
          (slot.at (.stamp mailbox false)), none)
      | some desc =>
          if !mailbox.reuse || some desc ≠ worker.cachedDesc then
            some (state.setSlot pool rank
              (slot.at (.readEntry mailbox desc)), none)
          else some (state.setSlot pool rank
            (slot.at (worker.enterEntry program mailbox)), none)
  | .readEntry mailbox desc =>
      let value := (state.descs desc).fields .workerEntry
      some (state.setSlot pool rank (slot.at (.readBase mailbox desc value)),
        some (.read pool rank mailbox.generation .workerEntry value))
  | .readBase mailbox desc workerEntry =>
      let value := (state.descs desc).fields .workerStateBase
      let refreshed :=
        { worker with
          cachedDesc := some desc
          cachedWorkerEntry := workerEntry
          cachedColdCollapse := value ≠ 0 }
      some (state.setSlot pool rank
          { slot with
            worker :=
              { refreshed with pc := refreshed.enterEntry program mailbox } },
        some (.read pool rank mailbox.generation .workerStateBase value))
  | .copy mailbox (field :: remaining) =>
      worker.cachedDesc.map fun desc =>
        let value := (state.descs desc).fields field
        (state.setSlot pool rank
            { slot with
              worker :=
                { worker.copyField program field value with
                  pc := .copy mailbox remaining } },
          some (.read pool rank mailbox.generation field value))
  | .copy mailbox [] =>
      some (state.setSlot pool rank
        { slot with
          worker := { worker.prime program with pc := .claim mailbox } }, none)
  | .claim mailbox =>
      let params := worker.params program
      match worker.claims program mailbox with
      | none => some (state.setSlot pool rank (slot.at (.body mailbox .entered)),
          some (.entered pool mailbox.generation rank params none))
      | some target =>
          let other := state.slots (target, rank)
          if tryClaimRank other.claimedAt mailbox.generation then
            let claimed := state.setSlot target rank
              { other with claimedAt := mailbox.generation }
            some (claimed.setSlot pool rank
                ((claimed.slots (pool, rank)).at (.body mailbox .entered)),
              some (.entered pool mailbox.generation rank params
                (some target)))
          else some (state.setSlot pool rank (slot.at (.stamp mailbox
            (worker.coldCollapseDispatch mailbox))), none)
  | .body mailbox (.claimed blockId) =>
      some (state.setSlot pool rank (slot.at (.body mailbox (.ran blockId))),
        some (.ran pool mailbox.generation rank blockId
          (worker.params program)))
  | .body _ .returned => none
  | .body mailbox place =>
      worker.cachedDesc.map fun desc =>
        let params := worker.params program
        let prevIdx := match place with
          | .ran blockId => some blockId
          | _ => none
        let outcome := (worker.entry program).kind.nextBlockId
          params.blockCount params.participants rank prevIdx
          (state.descs desc).nextBlock
        let counted := state.setDesc desc
          { state.descs desc with nextBlock := outcome.2 }
        (counted.setSlot pool rank
          (slot.placeAt mailbox (outcome.1.elim .returned .claimed)), none)
  | .stamp mailbox coldCollapseDispatch =>
      match mailbox.stampDone slot.mailbox coldCollapseDispatch with
      | some stamped =>
          some (state.setSlot pool rank
            { slot with
              mailbox := stamped
              worker := { worker with pc := .load, lastSeen := stamped } },
            none)
      | none =>
          some (state.setSlot pool rank (slot.at (.acknowledge mailbox)), none)
  | .acknowledge mailbox =>
      some (state.setSlot pool rank
        { slot with
          mailbox := slot.mailbox.withAck
          worker := { worker with pc := .load, lastSeen := mailbox.doneAcked } },
        none)

end WorkerSteps

/-! ## The producer's steps -/

section ProducerSteps

variable (program : Program)

/-- Whether every bit of the pool's cold-stamped mask is clear. -/
def State.Drained (state : State) (pool : ℕ) : Prop :=
  ∀ slot < program.participants pool,
    (state.slots (pool, slot)).coldStamped = false

instance (state : State) (pool : ℕ) :
    Decidable (state.Drained program pool) :=
  inferInstanceAs (Decidable (∀ slot < program.participants pool, _))

/-- The first operation of the primitive's call. -/
def Call.start (call : Call) : ProducerPc :=
  match call.primitive program with
  | .parallelFor => .entryDrain call
  | .parallelReduce => .fill call (call.guarded program) true

/-- The head of `dispatchOneStaticLockedBody`. -/
def State.dispatch (state : State) (call : Call) (reuseHint : Bool) :
    Dispatch :=
  let desc := state.descs (call.desc program)
  let participantsLocal := call.participants program
  (state.pools call.pool).dispatch participantsLocal (call.desc program)
    reuseHint (participantsLocal < desc.fields .blockCount) call.lowLatency
    (desc.fields .workerStateBase ≠ 0)

/-- The publish loop at a slot. -/
def Call.publishFrom (call : Call) (dispatch : Dispatch) (slot : ℕ) :
    ProducerPc :=
  if slot < call.participants program then
    if dispatch.reuseSafe then .publish call dispatch slot
    else .publishDesc call dispatch slot
  else if dispatch.reuseSafe then .enterSlot0 call dispatch
  else .record call dispatch

/-- The parameters as the producer reads them from its descriptor. -/
def State.producerParams (state : State) (call : Call) : Params :=
  (state.descs (call.desc program)).fields.params call.workerEntry

/-- The next operation of a runner on the producer: the state, the new place
and the block run, if any. -/
def State.runRank (state : State) (call : Call) (generation rank : ℕ) :
    RankPc → Option (State × RankPc × Option Event)
  | .returned => none
  | .claimed blockId =>
      some (state, .ran blockId, some (.ran call.pool generation rank blockId
        (state.producerParams program call)))
  | place =>
      let desc := call.desc program
      let fields := (state.descs desc).fields
      let prevIdx := match place with
        | .ran blockId => some blockId
        | _ => none
      let outcome := (call.entry program).kind.nextBlockId
        (fields .blockCount) (fields .participants) rank prevIdx
        (state.descs desc).nextBlock
      some (state.setDesc desc
          { state.descs desc with nextBlock := outcome.2 },
        outcome.1.elim .returned .claimed, none)

/-- The next operation of the calling thread. -/
def State.producerStep (state : State) : Option (State × Option Event) :=
  match state.producer with
  | .idle => none
  | .entryDrain call =>
      if state.Drained program call.pool then
        some (state.at (.fill call (call.guarded program) true), none)
      else none
  | .fill call (field :: remaining) keyMatches =>
      let desc := state.descs (call.desc program)
      let value := call.value program field
      if desc.fields field = value then
        some (state.at (.fill call remaining keyMatches), none)
      else
        some ((state.setDesc (call.desc program) (desc.store field value)).at
          (.fill call remaining false), none)
  | .fill call [] keyMatches =>
      let desc := state.descs (call.desc program)
      match call.primitive program with
      | .parallelFor =>
          if !keyMatches || desc.fields .chunk = 0 ||
              desc.fields .blockCount = 0 then
            some (state.at (.shape call [.chunk, .blockCount] keyMatches),
              none)
          else some (state.at (.counter call keyMatches), none)
      | .parallelReduce =>
          some (state.at (.begin call
            (call.reuseEligible program && keyMatches)), none)
  | .shape call (field :: remaining) keyMatches =>
      let desc := state.descs (call.desc program)
      some ((state.setDesc (call.desc program)
          (desc.store field (call.value program field))).at
        (.shape call remaining keyMatches), none)
  | .shape call [] keyMatches => some (state.at (.counter call keyMatches), none)
  | .counter call keyMatches =>
      let desc := state.descs (call.desc program)
      let participants := call.participants program
      let counted :=
        if (call.entry program).kind = .typed .dynamicChunked ∧
            participants < desc.fields .blockCount then
          state.setDesc (call.desc program)
            { desc with nextBlock := participants }
        else state
      -- one block is no dispatch: the thread runs the body inline
      if desc.fields .blockCount ≤ 1 then
        some ({ counted.at .idle with
          filledFor := Function.update state.filledFor (call.desc program)
            (some call.pool) }, none)
      else some (counted.at (.begin call
        (call.reuseEligible program && keyMatches)), none)
  | .begin call reuseHint =>
      let dispatch := state.dispatch program call reuseHint
      some ({ state.at (.drain call dispatch) with
          pools := Function.update state.pools call.pool
            { state.pools call.pool with generation := dispatch.generation }
          filledFor := Function.update state.filledFor (call.desc program)
            (some call.pool) },
        some (.called call.pool dispatch.generation call))
  | .drain call dispatch =>
      if state.Drained program call.pool then
        some (state.at (call.publishFrom program dispatch 1), none)
      else none
  | .publishDesc call dispatch slot =>
      let contents := state.slots (call.pool, slot)
      some ((state.setSlot call.pool slot
          { contents with mailboxDesc := some (call.desc program) }).at
        (.publish call dispatch slot), none)
  | .publish call dispatch slot =>
      let contents := state.slots (call.pool, slot)
      some ((state.setSlot call.pool slot
          { contents with mailbox := dispatch.publishedMb }).at
        (call.publishFrom program dispatch (slot + 1)), none)
  | .record call dispatch =>
      some ({ state.at (.enterSlot0 call dispatch) with
        pools := Function.update state.pools call.pool
          { state.pools call.pool with
            lastPublishedDesc := some (call.desc program) }
        published := Function.update state.published call.pool
          ⟨dispatch.generation, call⟩ }, none)
  | .enterSlot0 call dispatch =>
      some (state.at (.slot0 call dispatch .entered),
        some (.entered call.pool dispatch.generation 0
          (state.producerParams program call) none))
  | .slot0 call dispatch .returned =>
      some (state.at (.join call dispatch 1), none)
  | .slot0 call dispatch place =>
      (state.runRank program call dispatch.generation 0 place).map
        fun (after, next, event) =>
          (after.at (.slot0 call dispatch next), event)
  | .join call dispatch slot =>
      if slot < call.participants program then
        if (state.slots (call.pool, slot)).mailbox.withoutAck =
            dispatch.doneSentinelMb then
          some (state.at (.join call dispatch (slot + 1)), none)
        else none
      else some (state.at .idle,
        some (.returned call.pool dispatch.generation))
  | .cover call dispatch slot .returned =>
      some (state.at (.coverStamp call dispatch slot), none)
  | .cover call dispatch slot place =>
      (state.runRank program call dispatch.generation slot place).map
        fun (after, next, event) =>
          (after.at (.cover call dispatch slot next), event)
  | .coverStamp call dispatch slot =>
      let contents := state.slots (call.pool, slot)
      if contents.mailbox = dispatch.publishedMb then
        some ((state.setSlot call.pool slot
            { contents with mailbox := dispatch.doneSentinelMb }).at
          (if dispatch.reuseSafe then .join call dispatch (slot + 1)
            else .coverMark call dispatch slot), none)
      else some (state.at (.join call dispatch (slot + 1)), none)
  | .coverMark call dispatch slot =>
      let contents := state.slots (call.pool, slot)
      some ((state.setSlot call.pool slot
          { contents with coldStamped := true }).at
        (.join call dispatch (slot + 1)), none)

/-- The claim of a late worker's rank, made while the producer waits for the
slot. -/
def State.coverStep (state : State) : Option (State × Option Event) :=
  match state.producer with
  | .join call dispatch slot =>
      let contents := state.slots (call.pool, slot)
      if slot < call.participants program ∧
          call.participants program ≤ 64 ∧
          dispatch.skipColdCollapse = false ∧
          (state.descs (call.desc program)).fields .workerStateBase ≠ 0 ∧
          tryClaimRank contents.claimedAt dispatch.generation = true then
        some ((state.setSlot call.pool slot
            { contents with claimedAt := dispatch.generation }).at
          (.cover call dispatch slot .entered),
          some (.entered call.pool dispatch.generation slot
            (state.producerParams program call) (some call.pool)))
      else none
  | _ => none

/-- The pool whose acknowledgements the producer waits for. -/
def ProducerPc.drains : ProducerPc → Option ℕ
  | .entryDrain call | .drain call _ => some call.pool
  | _ => none

/-- A look at a cold-stamped slot's mailbox: the bit is cleared once the word
is acknowledged. -/
def State.pollStep (state : State) (slot : ℕ) :
    Option (State × Option Event) :=
  state.producer.drains.bind fun pool =>
    let contents := state.slots (pool, slot)
    if slot < program.participants pool ∧ contents.coldStamped = true ∧
        contents.mailbox.acked = true then
      some (state.setSlot pool slot { contents with coldStamped := false },
        none)
    else none

end ProducerSteps

/-! ## Leaving a share early -/

/-- Whether the runner of an entry has checks or a body that may throw. -/
def Entry.mayLeave (entry : Entry) : Bool :=
  entry.cancellationActive || !entry.bodyNoexcept

/-- Where a share can be left: in front of a block, at a check, and behind one
whose body threw. -/
def canLeave : RankPc → Bool
  | .claimed _ | .ran _ => true
  | .entered | .returned => false

section Leaving

variable (program : Program)

def State.workerLeaves (state : State) (pool rank : ℕ) :
    Option (State × Option Event) :=
  let slot := state.slots (pool, rank)
  match slot.worker.pc with
  | .body mailbox place =>
      if (slot.worker.entry program).mayLeave && canLeave place then
        some (state.setSlot pool rank (slot.placeAt mailbox .returned),
          some (.left pool mailbox.generation rank))
      else none
  | _ => none

def State.producerLeaves (state : State) : Option (State × Option Event) :=
  match state.producer with
  | .slot0 call dispatch place =>
      if (call.entry program).mayLeave && canLeave place then
        some (state.at (.slot0 call dispatch .returned),
          some (.left call.pool dispatch.generation 0))
      else none
  | .cover call dispatch slot place =>
      if (call.entry program).mayLeave && canLeave place then
        some (state.at (.cover call dispatch slot .returned),
          some (.left call.pool dispatch.generation slot))
      else none
  | _ => none

end Leaving

/-! ## The machine -/

/-- One step: a call, an operation of its thread, or one of a worker. -/
inductive Action
  | call (call : Call)
  | producer
  | cover
  | poll (slot : ℕ)
  | producerLeaves
  | worker (pool slot : ℕ)
  | workerLeaves (pool slot : ℕ)
  deriving DecidableEq, Repr

/-- The workers a pool has. -/
def Program.HasWorker (program : Program) (pool slot : ℕ) : Prop :=
  pool < program.pools ∧ 0 < slot ∧ slot < program.participants pool

instance (program : Program) (pool slot : ℕ) :
    Decidable (program.HasWorker pool slot) :=
  inferInstanceAs (Decidable (_ ∧ _))

/-- A call that reaches its descriptor: on one of the pools, with an entry and
a range. -/
def Call.Admissible (program : Program) (call : Call) : Prop :=
  call.pool < program.pools ∧ call.workerEntry ≠ 0 ∧ call.first < call.last

instance (program : Program) (call : Call) :
    Decidable (call.Admissible program) :=
  inferInstanceAs (Decidable (_ ∧ _))

def step (program : Program) (state : State) :
    Action → Option (State × Option Event)
  | .call call =>
      if state.producer = .idle ∧ call.Admissible program then
        some (state.at (call.start program), none)
      else none
  | .producer => state.producerStep program
  | .cover => state.coverStep program
  | .poll slot => state.pollStep program slot
  | .producerLeaves => state.producerLeaves program
  | .worker pool slot =>
      if program.HasWorker pool slot then state.workerStep program pool slot
      else none
  | .workerLeaves pool slot =>
      if program.HasWorker pool slot then state.workerLeaves program pool slot
      else none

def machine (program : Program) : Machine State Action Event where
  step := step program

/-- A worker before its first dispatch. -/
def Worker.fresh : Worker where
  toWorker := .fresh 0
  pc := .load
  caches := fun _ => ⟨fun _ => 0, false⟩

def Slot.fresh : Slot where
  toSlot := .fresh
  worker := .fresh

/-- A call that nobody made, for the histories of fresh pools. -/
def Call.none (pool : ℕ) : Call :=
  ⟨0, pool, 0, 0, 0, 0, 0, 0, 0, false, false⟩

/-- Fresh pools and fresh descriptors. -/
def start : State where
  producer := .idle
  descs := fun _ => ⟨fun _ => 0, 0⟩
  pools := fun _ => ⟨0, Option.none⟩
  slots := fun _ => .fresh
  filledFor := fun _ => Option.none
  published := fun pool => ⟨0, .none pool⟩

end Citor.JobCaches
