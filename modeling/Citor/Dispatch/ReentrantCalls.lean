import Citor.Core.Interleaving
import Citor.Engine.BlockArithmetic
import Citor.Reduce.ReducePaths
import Citor.Scan.LookbackScan

/-!
# Synchronous primitives called from user callbacks

Threads run user code, the code calls primitives of any pool, the primitives
call back into user code, and so on.  A thread is described by its stack and
its `ThreadContext`; the guard `shouldFallThroughCrossArena` reads the context
at the entry of every primitive.  What the entries compute is followed to the
branch they take; the lanes of `acquireDispatchGate` are one wait.
-/

namespace Citor.Reentrancy

open Citor.Interleaving

/-! ## The entries of the primitives -/

/-- What a thread records about the pool whose share it runs. -/
structure ThreadContext where
  slot : ℕ := 0
  insidePoolWorker : Bool := false
  pool : Option ℕ := none
  deriving DecidableEq, Repr

/-- What the entries read of a pool. -/
structure PoolShape where
  participants : ℕ
  l2KibPerCore : ℕ

/-- The fields of a hint that decide how a call runs. -/
structure Hints where
  chunk : ℕ
  dynamicChunked : Bool
  /-- `estimatedItemNs > 0`. -/
  estimated : Bool
  /-- `n * estimatedItemNs * 1e-3 < minTaskUs * participants` in doubles. -/
  belowThreshold : ℕ → ℕ → Bool

/-- A call of a primitive, with the arguments its entry reads. -/
inductive Call
  | parallelFor (first last : ℕ) (hints : Hints)
  | parallelForRuntime (first last : ℕ) (hints : Hints)
  | parallelReduce (first last : ℕ) (hints : Hints)
  | parallelReduceRuntime (first last : ℕ) (hints : Hints)
  | runPlex (nPhases n : ℕ)
  | runPlexRuntime (nPhases n : ℕ)
  | parallelChain (stageCount n : ℕ)
  | parallelChainRuntime (stageCount n : ℕ)
  | parallelScan (n : ℕ)
  | inclusiveScan (inSize outSize sizeofT : ℕ)
  | forkJoin (nTasks : ℕ)
  | forkJoinAll (nTasks : ℕ)

/-- The branch that an entry takes. -/
inductive Route
  /-- Returns or throws without calling back. -/
  | done
  /-- All callbacks run on the caller, under no lease. -/
  | onCaller
  /-- `runForkJoinTypedTailNested`. -/
  | nested
  /-- A `DispatchLease` is constructed and a job dispatched. -/
  | dispatch
  deriving DecidableEq, Repr

def shouldRunInline (n participants : ℕ) (hints : Hints) : Bool :=
  if participants ≤ 1 then true
  else if n = 0 then true
  else if hints.estimated then hints.belowThreshold n participants
  else false

def shouldRunInlineHinted (n participants : ℕ) (hints : Hints) : Bool :=
  if hints.estimated then shouldRunInline n participants hints
  else decide (participants ≤ 1)

section Entries

variable (shape : PoolShape) (pool : ℕ) (context : ThreadContext)

/-- The two branches behind the flag are the source's: the thread is on this
pool, or on another one. -/
def shouldFallThroughCrossArena : Bool :=
  if !context.insidePoolWorker then false
  else if context.pool = some pool then true
  else true

/-- `ctx.pool == this && ctx.insidePoolWorker`. -/
def onThisPool : Bool :=
  decide (context.pool = some pool) && context.insidePoolWorker

def runForkJoinOuter : Route :=
  if shape.participants ≤ 1 ∨ shouldFallThroughCrossArena pool context then
    .onCaller
  else .dispatch

def forkJoinImpl (nTasks : ℕ) : Route :=
  if nTasks = 0 then .done
  else if nTasks = 1 then .onCaller
  else if onThisPool pool context then .nested
  else runForkJoinOuter shape pool context

def forkJoinAll (n : ℕ) : Route :=
  if n = 0 then .done
  else if n = 1 then .onCaller
  else if onThisPool pool context then .nested
  else runForkJoinOuter shape pool context

def parallelFor (first last : ℕ) (hints : Hints) : Route :=
  if last ≤ first then .done
  else
    let n := last - first
    if shouldFallThroughCrossArena pool context then
      if context.pool = some pool then
        if shouldRunInlineHinted n shape.participants hints then .onCaller
        else
          let nested :=
            BlockArithmetic.nestedShape n shape.participants hints.chunk
          if nested.blockCount ≤ 1 then .onCaller
          else forkJoinAll shape pool context nested.blockCount
      else .onCaller
    else if shouldRunInlineHinted n shape.participants hints then .onCaller
    else
      let filled := BlockArithmetic.fillBlockShape n shape.participants
        hints.chunk hints.dynamicChunked
      if filled.blockCount ≤ 1 then .onCaller else .dispatch

def parallelForRuntime (first last : ℕ) (hints : Hints) : Route :=
  if last ≤ first then .done
  else
    let n := last - first
    if shouldFallThroughCrossArena pool context then .onCaller
    else if shouldRunInline n shape.participants hints then .onCaller
    else
      let filled :=
        BlockArithmetic.fillBlockShape n shape.participants hints.chunk true
      if filled.blockCount ≤ 1 then .onCaller else .dispatch

def parallelReduce (first last : ℕ) (hints : Hints) : Route :=
  if last ≤ first then .done
  else
    let n := last - first
    if shouldFallThroughCrossArena pool context then .onCaller
    else if shouldRunInlineHinted n shape.participants hints then .onCaller
    else if BlockArithmetic.ceilDiv n
        (Reduce.reduceChunkSize n hints.chunk) ≤ 1 then .onCaller
    else .dispatch

def parallelReduceRuntime (first last : ℕ) (hints : Hints) : Route :=
  if last ≤ first then .done
  else
    let n := last - first
    if shouldFallThroughCrossArena pool context then .onCaller
    else if shouldRunInline n shape.participants hints then .onCaller
    else if BlockArithmetic.ceilDiv n
        (Reduce.reduceChunkSize n hints.chunk) ≤ 1 then .onCaller
    else .dispatch

def runPlex (nPhases : ℕ) : Route :=
  if nPhases = 0 then .done
  else if shape.participants ≤ 1 ∨
      shouldFallThroughCrossArena pool context then .onCaller
  else .dispatch

/-- `parallelChainImplWithRuntimeHints`. -/
def parallelChainImpl (stageCount : ℕ) : Route :=
  if stageCount = 0 then .done
  else if shape.participants ≤ 1 ∨
      shouldFallThroughCrossArena pool context then .onCaller
  else .dispatch

def kScanInlineThreshold : ℕ := 32

def parallelScan (n : ℕ) : Route :=
  if n = 0 then .done
  else if shape.participants ≤ 1 ∨ n ≤ kScanInlineThreshold ∨
      shouldFallThroughCrossArena pool context then .onCaller
  else .dispatch

/-- `runInclusiveScanLookback` up to the dispatch. -/
def inclusiveScan (inSize outSize sizeofT : ℕ) : Route :=
  if inSize ≠ outSize then .done
  else if inSize = 0 then .done
  else
    let tileElems := Lookback.tileElemsFor inSize sizeofT shape.l2KibPerCore
      shape.participants
    if tileElems = 0 then .onCaller
    else if shape.participants ≤ 1 ∨
        (inSize + tileElems - 1) / tileElems = 1 ∨
        shouldFallThroughCrossArena pool context then .onCaller
    else .dispatch

/-- How a call on `pool` runs on a thread with this context. -/
def route : Call → Route
  | .parallelFor first last hints =>
      parallelFor shape pool context first last hints
  | .parallelForRuntime first last hints =>
      parallelForRuntime shape pool context first last hints
  | .parallelReduce first last hints =>
      parallelReduce shape pool context first last hints
  | .parallelReduceRuntime first last hints =>
      parallelReduceRuntime shape pool context first last hints
  | .runPlex nPhases _ => runPlex shape pool context nPhases
  | .runPlexRuntime nPhases _ => runPlex shape pool context nPhases
  | .parallelChain stageCount _ =>
      parallelChainImpl shape pool context stageCount
  | .parallelChainRuntime stageCount _ =>
      parallelChainImpl shape pool context stageCount
  | .parallelScan n => parallelScan shape pool context n
  | .inclusiveScan inSize outSize sizeofT =>
      inclusiveScan shape pool context inSize outSize sizeofT
  | .forkJoin nTasks => forkJoinImpl shape pool context nTasks
  | .forkJoinAll nTasks => forkJoinAll shape pool context nTasks

end Entries

/-! ## The callbacks -/

inductive Callback
  | body
  | map
  | combine
  | prefixFn
  | phaseFn
  | prePhaseFn
  | stage
  | task
  deriving DecidableEq, Repr

/-- What the inline path of a primitive calls. -/
def Call.inlineCallbacks : Call → List Callback
  | .parallelFor .. | .parallelForRuntime .. => [.body]
  | .parallelReduce .. | .parallelReduceRuntime .. => [.map, .combine]
  | .runPlex .. | .runPlexRuntime .. => [.prePhaseFn, .phaseFn]
  | .parallelChain .. | .parallelChainRuntime .. => [.stage]
  | .parallelScan .. => [.body, .prefixFn]
  | .inclusiveScan .. => [.prefixFn]
  | .forkJoin .. | .forkJoinAll .. => [.task]

/-- What a rank's share calls.  A drain loop also steals the tasks of a nested
`parallelFor`, which call its body. -/
def Call.shareCallbacks (slot : ℕ) : Call → List Callback
  | .parallelFor .. | .parallelForRuntime .. => [.body]
  | .parallelReduce .. | .parallelReduceRuntime .. => [.map]
  | .runPlex .. | .runPlexRuntime .. =>
      if slot = 0 then [.prePhaseFn, .phaseFn] else [.phaseFn]
  | .parallelChain .. | .parallelChainRuntime .. => [.stage]
  | .parallelScan .. => [.body, .prefixFn]
  | .inclusiveScan .. => [.prefixFn]
  | .forkJoin .. | .forkJoinAll .. => [.task, .body]

/-- What is called behind the join with the lease still alive: the closing
`prefix` of `runInclusiveScanLookback`. -/
def Call.closingCallbacks : Call → List Callback
  | .inclusiveScan .. => [.prefixFn]
  | _ => []

/-- What is called when the lease is gone: the combines of a reduction. -/
def Call.combineCallbacks : Call → List Callback
  | .parallelReduce .. | .parallelReduceRuntime .. => [.combine]
  | _ => []

/-- Whether `desc.workerStateBase` is set, so that the producer may run the
shares of other ranks. -/
def Call.coldCollapses : Call → Bool
  | .parallelFor .. => true
  | _ => false

/-! ## Threads -/

inductive ThreadId
  /-- A thread that is not a pool worker. -/
  | producer (index : ℕ)
  | worker (pool slot : ℕ)
  deriving DecidableEq, Repr

/-- Where a call stands between the lease's constructor and destructor. -/
inductive SectionStage
  | entered
  /-- The job is published. -/
  | joining
  /-- `dispatchOneStaticLocked` has returned. -/
  | closing
  deriving DecidableEq, Repr

inductive Frame
  | callback (callback : Callback)
  | onCaller (call : Call)
  | nested (call : Call)
  /-- In front of the constructor of the `DispatchLease`. -/
  | lease (call : Call) (pool : ℕ)
  /-- In `acquireDispatchGate`. -/
  | gate (call : Call) (pool : ℕ)
  | leased (call : Call) (pool : ℕ) (gateSkipped : Bool) (stage : SectionStage)
  /-- A rank's share; `saved` is the context a `TlsContextScope` restores. -/
  | share (call : Call) (pool slot : ℕ) (saved : Option ThreadContext)
  | combining (call : Call)

def Frame.callbacks : Frame → List Callback
  | .onCaller call => call.inlineCallbacks
  | .nested _ => [.task, .body]
  | .leased call _ _ .closing => call.closingCallbacks
  | .share call _ slot _ => call.shareCallbacks slot
  | .combining call => call.combineCallbacks
  | _ => []

/-- A dispatched job: the ranks nobody has claimed and the number of shares
that are running. -/
structure Job where
  call : Call
  unclaimed : List ℕ
  running : ℕ

structure State where
  stack : ThreadId → List Frame
  context : ThreadId → ThreadContext
  /-- `lowLatencyOwnerPoolTls`. -/
  lowLatencyOwner : ThreadId → Option ℕ
  hotSpinDepth : ℕ → ℕ
  dispatchMutex : ℕ → Option ThreadId
  activeJob : ℕ → Option Job

/-- The context outside of all shares: a worker sets its own up for life. -/
def ThreadId.home : ThreadId → ThreadContext
  | .producer _ => {}
  | .worker pool slot => ⟨slot, true, some pool⟩

def initial : State where
  stack := fun _ => []
  context := ThreadId.home
  lowLatencyOwner := fun _ => none
  hotSpinDepth := fun _ => 0
  dispatchMutex := fun _ => none
  activeJob := fun _ => none

inductive Action
  /-- User code calls a primitive of a pool. -/
  | call (thread : ThreadId) (pool : ℕ) (call : Call)
  /-- User code constructs a `LowLatencyGuard`. -/
  | engage (thread : ThreadId) (pool : ℕ)
  /-- User code destroys one; the owner pointer gets its old value back. -/
  | disengage (thread : ThreadId) (pool : ℕ) (prevOwner : Option ℕ)
  /-- A primitive calls back. -/
  | invoke (thread : ThreadId) (callback : Callback)
  /-- A callback returns or throws. -/
  | leaveCallback (thread : ThreadId)
  /-- A call on the caller ends. -/
  | finish (thread : ThreadId)
  /-- The constructor of a `DispatchLease` picks its path. -/
  | construct (thread : ThreadId)
  /-- `acquireDispatchGate` returns. -/
  | acquire (thread : ThreadId)
  | publish (thread : ThreadId)
  /-- A thread starts the share of a rank. -/
  | takeShare (thread : ThreadId) (pool slot : ℕ)
  | leaveShare (thread : ThreadId)
  /-- The producer has seen every rank's done stamp. -/
  | join (thread : ThreadId)
  /-- The destructor of a `DispatchLease`. -/
  | release (thread : ThreadId)

def State.setStack (state : State) (thread : ThreadId)
    (stack : List Frame) : State :=
  { state with stack := Function.update state.stack thread stack }

def State.push (state : State) (thread : ThreadId) (frame : Frame) : State :=
  state.setStack thread (frame :: state.stack thread)

def State.setContext (state : State) (thread : ThreadId)
    (context : ThreadContext) : State :=
  { state with context := Function.update state.context thread context }

def State.setJob (state : State) (pool : ℕ) (job : Option Job) : State :=
  { state with activeJob := Function.update state.activeJob pool job }

/-- Whether a thread with this stack runs user code: its own, for a producer,
or a callback. -/
def inUserCode : ThreadId → List Frame → Bool
  | .producer _, [] => true
  | _, .callback _ :: _ => true
  | _, _ => false

/-- Whether the constructor of a lease takes the low-latency path. -/
def State.skipsGate (state : State) (thread : ThreadId) (pool : ℕ) : Bool :=
  decide (state.hotSpinDepth pool ≠ 0) &&
    decide (state.lowLatencyOwner thread = some pool)

/-- The share of a rank starts: a worker runs its own under its own context;
the producer runs slot 0 and, where the job allows it, those it collapses,
each under a `TlsContextScope`. -/
def State.takeShare (state : State) (thread : ThreadId) (pool slot : ℕ) :
    Option State := do
  let job ← state.activeJob pool
  if slot ∈ job.unclaimed then
    let taken := state.setJob pool
      (some { job with
        unclaimed := job.unclaimed.erase slot, running := job.running + 1 })
    match thread, state.stack thread with
    | .worker home own, [] =>
        if home = pool ∧ own = slot ∧ slot ≠ 0 then
          some (taken.push thread (.share job.call pool slot none))
        else none
    | _, .leased _ leasedPool _ .joining :: _ =>
        if leasedPool = pool ∧
            (slot = 0 ∨ job.call.coldCollapses ∧ 0 ∉ job.unclaimed) then
          some ((taken.push thread
            (.share job.call pool slot (some (state.context thread)))).setContext
              thread ⟨slot, true, some pool⟩)
        else none
    | _, _ => none
  else none

/-- The share's scope is left, and the rank is done. -/
def State.leaveShare (state : State) (thread : ThreadId) : Option State :=
  match state.stack thread with
  | .share _ pool _ saved :: rest =>
      let left := state.setStack thread rest
      let restored := match saved with
        | some context => left.setContext thread context
        | none => left
      some (restored.setJob pool
        ((state.activeJob pool).map fun job =>
          { job with running := job.running - 1 }))
  | _ => none

/-- The destructor of a lease; a reduction combines after it. -/
def State.release (state : State) (thread : ThreadId) : Option State :=
  match state.stack thread with
  | .leased call pool gateSkipped .closing :: rest =>
      let left := state.setStack thread
        (if call.combineCallbacks = [] then rest else .combining call :: rest)
      some (if gateSkipped then left
        else { left with
          dispatchMutex := Function.update state.dispatchMutex pool none })
  | _ => none

/-- One step of one thread. -/
def step (pools : ℕ → PoolShape) (state : State) : Action → Option State
  | .call thread pool call =>
      if inUserCode thread (state.stack thread) then
        match route (pools pool) pool (state.context thread) call with
        | .done => some state
        | .onCaller => some (state.push thread (.onCaller call))
        | .nested => some (state.push thread (.nested call))
        | .dispatch => some (state.push thread (.lease call pool))
      else none
  | .engage thread pool =>
      if inUserCode thread (state.stack thread) then
        some { state with
          lowLatencyOwner :=
            Function.update state.lowLatencyOwner thread (some pool)
          hotSpinDepth := Function.update state.hotSpinDepth pool
            (state.hotSpinDepth pool + 1) }
      else none
  | .disengage thread pool prevOwner =>
      if inUserCode thread (state.stack thread) then
        some { state with
          lowLatencyOwner :=
            Function.update state.lowLatencyOwner thread prevOwner
          hotSpinDepth := Function.update state.hotSpinDepth pool
            (state.hotSpinDepth pool - 1) }
      else none
  | .invoke thread callback =>
      match state.stack thread with
      | frame :: _ =>
          if callback ∈ frame.callbacks then
            some (state.push thread (.callback callback))
          else none
      | [] => none
  | .leaveCallback thread =>
      match state.stack thread with
      | .callback _ :: rest => some (state.setStack thread rest)
      | _ => none
  | .finish thread =>
      match state.stack thread with
      | .onCaller _ :: rest => some (state.setStack thread rest)
      | .nested _ :: rest => some (state.setStack thread rest)
      | .combining _ :: rest => some (state.setStack thread rest)
      | _ => none
  | .construct thread =>
      match state.stack thread with
      | .lease call pool :: rest =>
          if state.skipsGate thread pool then
            some (state.setStack thread (.leased call pool true .entered :: rest))
          else some (state.setStack thread (.gate call pool :: rest))
      | _ => none
  | .acquire thread =>
      match state.stack thread with
      | .gate call pool :: rest =>
          if state.dispatchMutex pool = none then
            some ({ state with
              dispatchMutex :=
                Function.update state.dispatchMutex pool (some thread) }.setStack
                  thread (.leased call pool false .entered :: rest))
          else none
      | _ => none
  | .publish thread =>
      match state.stack thread with
      | .leased call pool gateSkipped .entered :: rest =>
          some ((state.setStack thread
            (.leased call pool gateSkipped .joining :: rest)).setJob pool
              (some ⟨call, List.range (pools pool).participants, 0⟩))
      | _ => none
  | .takeShare thread pool slot => state.takeShare thread pool slot
  | .leaveShare thread => state.leaveShare thread
  | .join thread =>
      match state.stack thread with
      | .leased call pool gateSkipped .joining :: rest =>
          match state.activeJob pool with
          | some job =>
              if job.unclaimed = [] ∧ job.running = 0 then
                some ((state.setStack thread
                  (.leased call pool gateSkipped .closing :: rest)).setJob pool
                    none)
              else none
          | none => none
      | _ => none
  | .release thread => state.release thread

/-- Threads of all pools and outside of them, in any interleaving. -/
def machine (pools : ℕ → PoolShape) : Machine State Action Empty where
  step state action := (step pools state action).map fun after => (after, none)

/-! ## What the calls promise -/

def Frame.isShare : Frame → Bool
  | .share .. => true
  | _ => false

/-- A scan that has taken its gate is in its closing `prefix` on the thread. -/
def State.InClosing (state : State) (thread : ThreadId) : Prop :=
  ∃ call pool, .leased call pool false .closing ∈ state.stack thread

/-- In front of the constructor of a lease: the thread is not within a closing
`prefix`, or the lease takes the low-latency path. -/
def Undisturbed (state : State) : Action → Prop
  | .construct thread =>
      ∀ call pool rest, state.stack thread = .lease call pool :: rest →
        state.skipsGate thread pool = true ∨ ¬ state.InClosing thread
  | _ => True

end Citor.Reentrancy
