import Citor.Core.Interleaving
import Citor.Engine.BlockPartition

/-!
# Fork-join calls

Every slot owns a deque and a call stack.  A call pushes its tasks on the
deque of the slot that makes it, runs its last task inline when it is nested,
and drains: it pops its own deque, steals from the others and runs whatever
task it finds until its own tasks have retired.  The deque operations are
atomic here, as `ChaseLev` allows; a steal may fail at any time.
-/

namespace Citor.ForkJoin

open Citor.Interleaving Citor.BlockPartition

/-- What a task body does as far as the pool can tell: end or throw, poll a
cancellation token, or make a fork-join call with `count` tasks and go on when
the call returns or throws. -/
inductive Prog (Exn : Type) where
  | done (result : Option Exn)
  | poll (token : ℕ) (next : Bool → Prog Exn)
  | fork (token : Option ℕ) (count : ℕ) (child : ℕ → Prog Exn)
      (next : Option Exn → Prog Exn)

section Programs

variable {Exn : Type}

/-- Run one program and then another; an exception skips the second. -/
def Prog.andThen : Prog Exn → Prog Exn → Prog Exn
  | .done none, rest => rest
  | .done (some thrown), _ => .done (some thrown)
  | .poll token next, rest =>
      .poll token fun stopped => (next stopped).andThen rest
  | .fork token count child next, rest =>
      .fork token count child fun result => (next result).andThen rest

/-- `if (tok.stop_requested()) return;` before `body`. -/
def Prog.unlessStopped (token : Option ℕ) (body : Prog Exn) : Prog Exn :=
  match token with
  | none => body
  | some token =>
      .poll token fun stopped => if stopped then .done none else body

/-- `runInline`. -/
def runInline (first last : ℕ) (fn : ℕ → ℕ → Prog Exn) (token : Option ℕ) :
    Prog Exn :=
  (fn first last).unlessStopped token

/-- The loop of `runInlineChunked` over the blocks from `block` on. -/
def inlineBlocks (first last chunk : ℕ) (cancelToken : Option ℕ)
    (fn : ℕ → ℕ → Prog Exn) : ℕ → ℕ → Prog Exn
  | 0, _ => .done none
  | left + 1, block =>
      Prog.unlessStopped cancelToken <|
        (fn (blockLo first chunk block)
          (blockHi first last chunk block)).andThen
          (inlineBlocks first last chunk cancelToken fn left (block + 1))

/-- `runInlineChunked`. -/
def runInlineChunked (first last chunk : ℕ) (cancelToken : Option ℕ)
    (fn : ℕ → ℕ → Prog Exn) (token : Option ℕ) : Prog Exn :=
  Prog.unlessStopped token <|
    if chunk = 0 ∨ last - first ≤ chunk then fn first last
    else inlineBlocks first last chunk cancelToken fn
      (ceilDiv (last - first) chunk) 0

/-- `nestedBody`: one block of a nested `parallelFor`. -/
def nestedBody (first last chunk : ℕ) (cancelToken : Option ℕ)
    (fn : ℕ → ℕ → Prog Exn) (block : ℕ) : Prog Exn :=
  Prog.unlessStopped cancelToken <|
    let lo := blockLo first chunk block
    let hi := blockHi first last chunk block
    if lo < hi then fn lo hi else .done none

/-- The block size of a nested `parallelFor`: the hint, or twice as many blocks
as participants. -/
def nestedChunk (participants n chunkHint : ℕ) : ℕ :=
  let derived := ceilDiv n (participants * 2)
  if chunkHint = 0 then (if derived = 0 then 1 else derived) else chunkHint

/-- A `parallelFor` made inside a body of the same pool.  `runInlineHint` is
the verdict of `shouldRunInlineHinted`, `cancelToken` the token when the hints
ask for cancellation checks. -/
def nestedParallelFor (participants first last chunkHint : ℕ)
    (runInlineHint : Bool) (cancelToken token : Option ℕ)
    (fn : ℕ → ℕ → Prog Exn) : Prog Exn :=
  if last ≤ first then .done none
  else if runInlineHint then
    runInlineChunked first last chunkHint cancelToken fn token
  else
    let chunk := nestedChunk participants (last - first) chunkHint
    let blockCount := ceilDiv (last - first) chunk
    if blockCount ≤ 1 then runInline first last fn token
    else .fork none blockCount (nestedBody first last chunk cancelToken fn)
      .done

theorem nestedChunk_pos (participants n chunkHint : ℕ) :
    0 < nestedChunk participants n chunkHint := by
  simp only [nestedChunk]
  split_ifs <;> omega

/-- A nested `parallelFor` of more than one block forks a task for each. -/
theorem nestedParallelFor_forks {participants first last chunkHint : ℕ}
    (cancelToken token : Option ℕ) (fn : ℕ → ℕ → Prog Exn)
    (hmany : 1 < ceilDiv (last - first)
      (nestedChunk participants (last - first) chunkHint)) :
    nestedParallelFor participants first last chunkHint false cancelToken token
        fn =
      .fork none (ceilDiv (last - first)
          (nestedChunk participants (last - first) chunkHint))
        (nestedBody first last
          (nestedChunk participants (last - first) chunkHint) cancelToken fn)
        .done := by
  have hrange : ¬ last ≤ first := by
    intro hempty
    simp [Nat.sub_eq_zero_of_le hempty, ceilDiv] at hmany
  simp [nestedParallelFor, hrange, Nat.not_le.2 hmany]

/-- The tasks of a nested `parallelFor` split its range: every index belongs to
the block of exactly one of them. -/
theorem nestedParallelFor_splits (participants chunkHint : ℕ)
    {first last index : ℕ} (hfirst : first ≤ index) (hlast : index < last) :
    let chunk := nestedChunk participants (last - first) chunkHint
    ∃! block, block < ceilDiv (last - first) chunk ∧
      blockLo first chunk block ≤ index ∧
        index < blockHi first last chunk block := by
  intro chunk
  have hchunk : 0 < chunk := nestedChunk_pos _ _ _
  refine ⟨(index - first) / chunk, ⟨block_lt_ceilDiv hchunk hfirst hlast,
    (mem_block_iff hchunk hfirst hlast _).2 rfl⟩, ?_⟩
  rintro block ⟨-, hblock⟩
  exact ((mem_block_iff hchunk hfirst hlast block).1 hblock).symm

end Programs

/-- A task is named by its call and its position in it. -/
structure Task where
  call : ℕ
  index : ℕ
  deriving DecidableEq

/-- How a call runs: its only task directly on the caller, all tasks through
the dispatch of an outer call, or from inside the pool with an inline tail. -/
inductive Kind
  | single
  | outer
  | nested
  deriving DecidableEq

/-- How a task is run: popped by the drain of its own nested call
(`runOneTaskOwn`), taken by any other drain (`runOneTaskImpl`), as the inline
tail, or directly. -/
inductive Via
  | own
  | shared
  | tail
  | single
  deriving DecidableEq

/-- Who drains: a nested call, the producer of an outer call, or a worker that
takes part in it. -/
inductive Role
  | nested
  | producer
  | worker
  deriving DecidableEq

/-- Where the drain loop stands. -/
inductive DrainPc
  /-- About to load `pendingTasks`. -/
  | check
  | pop
  /-- About to probe `lastVictim`. -/
  | hot
  | random
  deriving DecidableEq

/-- The fork-join state of a call, and what the call is made of. -/
structure Call (Exn : Type) where
  kind : Kind
  /-- Its tasks run on slots of this pool (`insidePoolWorker`). -/
  inside : Bool
  count : ℕ
  child : ℕ → Prog Exn
  token : Option ℕ
  pendingTasks : ℤ
  /-- The stack-local counter of a nested call. -/
  ownPending : ℤ
  forkJoinCancelled : Bool
  firstException : Option Exn

/-- How many tasks go through the deque. -/
def Call.deferred {Exn : Type} (call : Call Exn) : ℕ :=
  match call.kind with
  | .single => 0
  | .outer => call.count
  | .nested => call.count - 1

/-- One entry of a slot's call stack. -/
inductive Frame (Exn : Type) where
  /-- About to push task `next` of `count`. -/
  | push (call next count : ℕ)
  /-- About to load `forkJoinCancelled`. -/
  | gate (task : Task) (via : Via)
  /-- About to poll the call's token. -/
  | poll (task : Task) (via : Via)
  | body (task : Task) (via : Via) (prog : Prog Exn)
  /-- The body waits for a call it made. -/
  | wait (task : Task) (via : Via) (next : Option Exn → Prog Exn)
  /-- The body threw; about to run `captureFirstException`. -/
  | capture (task : Task) (via : Via) (thrown : Exn)
  /-- About to set `forkJoinCancelled`. -/
  | cancel (task : Task) (via : Via)
  /-- About to count the task; `escaping` leaves a directly run task. -/
  | retire (task : Task) (via : Via) (escaping : Option Exn)
  | drain (call : ℕ) (role : Role) (pc : DrainPc) (lastVictim : Option ℕ)
  /-- The producer of an outer call waits for the workers. -/
  | join (call : ℕ)
  /-- About to run `rethrowIfCaptured` and return. -/
  | rethrow (call : ℕ)
  /-- A call without a join is about to return. -/
  | ret (call : ℕ) (result : Option Exn)

/-- A worker's part in the dispatch of an outer call. -/
inductive WorkerPhase
  | idle
  | notified (call : ℕ)
  | draining
  | finished
  deriving DecidableEq

/-- `frames` holds every slot's call stack, the innermost frame first; the
deques hold their oldest task first. -/
structure State (Exn : Type) where
  calls : ℕ → Call Exn
  callCount : ℕ
  deques : ℕ → List Task
  frames : ℕ → List (Frame Exn)
  workers : ℕ → WorkerPhase
  stopped : ℕ → Bool

inductive Event (Exn : Type)
  /-- The body of a task is entered. -/
  | ran (task : Task)
  /-- Cancellation short-circuits the body. -/
  | skipped (task : Task)
  | ended (task : Task) (result : Option Exn)
  | retired (task : Task) (via : Via)
  | returned (call : ℕ) (result : Option Exn)
  deriving DecidableEq

inductive Action (Exn : Type)
  /-- A thread outside the pool makes a call; it holds slot 0 until the call
  returns. -/
  | start (token : Option ℕ) (count : ℕ) (child : ℕ → Prog Exn)
  /-- A slot runs a body for another primitive of the pool. -/
  | share (slot : ℕ) (body : Prog Exn)
  /-- The slot takes its next step. -/
  | advance (slot : ℕ)
  /-- The slot probes a victim; `hit` says whether the steal succeeds. -/
  | steal (slot victim : ℕ) (hit : Bool)
  /-- A notified worker enters the drain. -/
  | wake (slot : ℕ)
  | stop (token : ℕ)

section Steps

variable {Exn : Type}

def State.setFrames (state : State Exn) (slot : ℕ)
    (frames : List (Frame Exn)) : State Exn :=
  { state with frames := Function.update state.frames slot frames }

def State.setDeque (state : State Exn) (slot : ℕ) (tasks : List Task) :
    State Exn :=
  { state with deques := Function.update state.deques slot tasks }

def State.setCall (state : State Exn) (call : ℕ) (record : Call Exn) :
    State Exn :=
  { state with calls := Function.update state.calls call record }

/-- `state.token.stop_requested()`; a call without a token has the sentinel. -/
def State.stopRequested (state : State Exn) (call : ℕ) : Bool :=
  match (state.calls call).token with
  | none => false
  | some token => state.stopped token

/-- A slot nobody uses and a call nobody made. -/
def Call.unused : Call Exn where
  kind := .single
  inside := false
  count := 0
  child := fun _ => .done none
  token := none
  pendingTasks := 0
  ownPending := 0
  forkJoinCancelled := false
  firstException := none

/-- `forkJoinImpl` and `forkJoinAll` choose the path by the number of tasks and
by whether the caller runs on a slot of the pool; only the tasks that go
through the deque are pending. -/
def Call.make (inside : Bool) (token : Option ℕ) (count : ℕ)
    (child : ℕ → Prog Exn) : Call Exn :=
  let kind : Kind :=
    if count ≤ 1 then .single else if inside then .nested else .outer
  { Call.unused with
    kind := kind
    inside := inside || decide (kind = .outer)
    count := count
    child := child
    token := token
    pendingTasks := match kind with
      | .single => 0
      | .outer => count
      | .nested => (count - 1 : ℕ) }

/-- The first frame of a call. -/
def entryFrame (call count : ℕ) : Frame Exn :=
  if count = 0 then .ret call none
  else if count = 1 then .poll ⟨call, 0⟩ .single
  else .push call 0 count

/-- Make a call on top of `rest`. -/
def State.openCall (state : State Exn) (slot : ℕ) (inside : Bool)
    (token : Option ℕ) (count : ℕ) (child : ℕ → Prog Exn)
    (rest : List (Frame Exn)) : State Exn :=
  { state with
    calls := Function.update state.calls state.callCount
      (Call.make inside token count child)
    callCount := state.callCount + 1
    frames := Function.update state.frames slot
      (entryFrame state.callCount count :: rest) }

/-- Return from a call to the body that waits for it, if any. -/
def resume (result : Option Exn) :
    List (Frame Exn) → Option (List (Frame Exn))
  | [] => some []
  | .wait task via next :: rest => some (.body task via (next result) :: rest)
  | _ => none

/-- What `runForkJoinDrain` compares with zero: the stack-local count is
subtracted where the drain was given one. -/
def Call.effective (call : Call Exn) (role : Role) : ℤ :=
  if role = .nested then call.pendingTasks - call.ownPending
  else call.pendingTasks

/-- The drain loop, apart from the steals. -/
def advanceDrain (state : State Exn) (slot call : ℕ) (role : Role)
    (pc : DrainPc) (lastVictim : Option ℕ) (rest : List (Frame Exn)) :
    Option (State Exn × Option (Event Exn)) :=
  match pc with
  | .check =>
      if (state.calls call).effective role ≤ 0 then
        match role with
        | .nested => some (state.setFrames slot (.rethrow call :: rest), none)
        | .producer => some (state.setFrames slot (.join call :: rest), none)
        | .worker => some
            ({ state.setFrames slot rest with
                workers := Function.update state.workers slot .finished },
              none)
      else some
        (state.setFrames slot (.drain call role .pop lastVictim :: rest), none)
  | .pop =>
      match (state.deques slot).getLast? with
      | some task =>
          let via : Via :=
            if role = .nested ∧ task.call = call then .own else .shared
          some ((state.setDeque slot (state.deques slot).dropLast).setFrames
            slot (.gate task via :: .drain call role .check lastVictim :: rest),
            none)
      | none =>
          let probe : DrainPc := if lastVictim.isSome then .hot else .random
          some (state.setFrames slot (.drain call role probe lastVictim :: rest),
            none)
  | .hot => none
  | .random => none

/-- Probe one victim on behalf of the drain that stands at the top. -/
def probeVictim (participants : ℕ) (state : State Exn) (slot victim : ℕ)
    (hit : Bool) : Option (State Exn × Option (Event Exn)) :=
  match state.frames slot with
  | .drain call role .hot (some lastVictim) :: rest =>
      if victim = lastVictim ∧ victim < participants then
        match hit, state.deques victim with
        | false, _ => some
            (state.setFrames slot (.drain call role .random none :: rest), none)
        | true, [] => none
        | true, task :: others => some
            ((state.setDeque victim others).setFrames slot (.gate task .shared ::
              .drain call role .check (some victim) :: rest), none)
      else none
  | .drain call role .random _ :: rest =>
      if victim < participants ∧ victim ≠ slot then
        match hit, state.deques victim with
        | false, _ => some
            (state.setFrames slot (.drain call role .check none :: rest), none)
        | true, [] => none
        | true, task :: others => some
            ((state.setDeque victim others).setFrames slot (.gate task .shared ::
              .drain call role .check (some victim) :: rest), none)
      else none
  | _ => none

/-- Count a task whose body has ended or was short-circuited. -/
def retireTask (state : State Exn) (slot : ℕ) (task : Task) (via : Via)
    (escaping : Option Exn) (rest : List (Frame Exn)) : State Exn :=
  let call := state.calls task.call
  match via with
  | .own =>
      (state.setCall task.call
        { call with ownPending := call.ownPending + 1 }).setFrames slot rest
  | .shared =>
      (state.setCall task.call
        { call with pendingTasks := call.pendingTasks - 1 }).setFrames slot rest
  | .tail =>
      state.setFrames slot (.drain task.call .nested .check none :: rest)
  | .single => state.setFrames slot (.ret task.call escaping :: rest)

/-- One step of a task between the moment it is taken and its retirement. -/
def advanceTask (state : State Exn) (slot : ℕ) (rest : List (Frame Exn)) :
    Frame Exn → Option (State Exn × Option (Event Exn))
  | .gate task via =>
      if (state.calls task.call).forkJoinCancelled then
        some (state.setFrames slot (.retire task via none :: rest),
          some (.skipped task))
      else some (state.setFrames slot (.poll task via :: rest), none)
  | .poll task via =>
      if state.stopRequested task.call then
        some (state.setFrames slot (.retire task via none :: rest),
          some (.skipped task))
      else
        some (state.setFrames slot
          (.body task via ((state.calls task.call).child task.index) :: rest),
          some (.ran task))
  | .body task via (.done result) =>
      let next : Frame Exn :=
        match via, result with
        | .single, _ => .retire task .single result
        | via, none => .retire task via none
        | via, some thrown => .capture task via thrown
      some (state.setFrames slot (next :: rest), some (.ended task result))
  | .body task via (.poll token next) =>
      some (state.setFrames slot
        (.body task via (next (state.stopped token)) :: rest), none)
  | .body task via (.fork token count child next) =>
      some (state.openCall slot (state.calls task.call).inside token count child
        (.wait task via next :: rest), none)
  | .capture task via thrown =>
      let call := state.calls task.call
      some ((state.setCall task.call
        { call with
          firstException := call.firstException <|> some thrown }).setFrames
        slot (.cancel task via :: rest), none)
  | .cancel task via =>
      let call := state.calls task.call
      some ((state.setCall task.call
        { call with forkJoinCancelled := true }).setFrames
        slot (.retire task via none :: rest), none)
  | .retire task via escaping =>
      some (retireTask state slot task via escaping rest,
        some (.retired task via))
  | _ => none

/-- One step of a call that is not about one task. -/
def advanceCall (participants : ℕ) (state : State Exn) (slot : ℕ)
    (rest : List (Frame Exn)) :
    Frame Exn → Option (State Exn × Option (Event Exn))
  | .push call next count =>
      if next < (state.calls call).deferred then
        some ((state.setDeque slot
          (state.deques slot ++ [⟨call, next⟩])).setFrames slot
            (.push call (next + 1) count :: rest), none)
      else
        match (state.calls call).kind with
        | .nested => some (state.setFrames slot
            (.gate ⟨call, next⟩ .tail :: rest), none)
        -- the generation is published: every worker will enter the drain
        | .outer => some
            ({ state.setFrames slot
                (.drain call .producer .check none :: rest) with
                workers := fun _ => .notified call }, none)
        | .single => none
  | .join call =>
      if ∀ worker < participants, 0 < worker →
          state.workers worker = .finished then
        some (state.setFrames slot (.rethrow call :: rest), none)
      else none
  | .rethrow call => do
      let record := state.calls call
      let below ← resume record.firstException rest
      return ((state.setCall call
        { record with firstException := none }).setFrames slot below,
        some (.returned call record.firstException))
  | .ret call result => do
      let below ← resume result rest
      return (state.setFrames slot below, some (.returned call result))
  | _ => none

def step (participants : ℕ) (state : State Exn) :
    Action Exn → Option (State Exn × Option (Event Exn))
  | .start token count child =>
      match state.frames 0 with
      | [] =>
          if 0 < participants then
            some (state.openCall 0 false token count child [], none)
          else none
      | _ :: _ => none
  | .share slot body =>
      match state.frames slot with
      | [] =>
          if slot < participants then
            some (state.openCall slot true none 1 (fun _ => body) [], none)
          else none
      | _ :: _ => none
  | .advance slot =>
      if slot < participants then
        match state.frames slot with
        | [] => none
        | .drain call role pc lastVictim :: rest =>
            advanceDrain state slot call role pc lastVictim rest
        | frame :: rest =>
            (advanceTask state slot rest frame).or
              (advanceCall participants state slot rest frame)
      else none
  | .steal slot victim hit =>
      if slot < participants then
        probeVictim participants state slot victim hit
      else none
  | .wake slot =>
      match state.frames slot, state.workers slot with
      | [], .notified call =>
          if slot < participants ∧ 0 < slot then
            some ({ state.setFrames slot [.drain call .worker .check none] with
              workers := Function.update state.workers slot .draining }, none)
          else none
      | _, _ => none
  | .stop token =>
      some ({ state with stopped := Function.update state.stopped token true },
        none)

/-- The fork-join machine of a pool with `participants` slots. -/
def forkJoin (Exn : Type) (participants : ℕ) :
    Machine (State Exn) (Action Exn) (Event Exn) :=
  ⟨step participants⟩

/-- Nothing called yet; some tokens may already be stopped. -/
def start (Exn : Type) (stopped : ℕ → Bool) : State Exn where
  calls := fun _ => .unused
  callCount := 0
  deques := fun _ => []
  frames := fun _ => []
  workers := fun _ => .idle
  stopped := stopped

end Steps

end Citor.ForkJoin
