import Citor.Core.Interleaving

/-!
# Coroutines driven to completion

`syncWait` resumes a task on the calling thread and blocks until its wrapper
is done.  Each `co_await` of a pool awaiter hands the coroutine over to the
driver thread of the pool, which runs the body and resumes it.  A gate counts
the drivers in flight, so that the wrapper frame outlives them.
-/

namespace Citor.SyncWait

open Citor.Interleaving

/-! ## The parties -/

/-- The gate's state word: the done bit and the number of drivers in flight. -/
structure SyncWaitGate where
  done : Bool := false
  count : ℕ := 0
deriving DecidableEq

/-- What `syncWait` waits for. -/
def SyncWaitGate.final (gate : SyncWaitGate) : Bool :=
  gate.done && gate.count == 0

/-- What a thread can be in: a call of `syncWait` or a closure. -/
inductive Frame where
  | call (call : ℕ)
  | closure (closure : ℕ)
deriving DecidableEq

/-- Where a `resume` of a coroutine is: in the coroutine's code, between the
count and the submission of an await, or on its way back to the resumer. -/
inductive Resume where
  | running
  | submitting (closure : ℕ)
  | unwinding
deriving DecidableEq

inductive CallPhase where
  | resuming (resume : Resume)
  | load
  | loaded (seen : SyncWaitGate)
  | blocked (seen : SyncWaitGate)
  /-- The wrapper frame is destroyed. -/
  | returned
deriving DecidableEq

/-- A call of `syncWait`, with its gate. -/
structure Call where
  gate : SyncWaitGate := {}
  phase : CallPhase := .resuming .running
  savedTL : Option ℕ
deriving DecidableEq

inductive ClosurePhase where
  /-- Counted, not submitted yet by the resume in a frame. -/
  | pending (submitter : Frame)
  | queued
  | body
  | resuming (resume : Resume)
  /-- Back from the resume, in front of the decrement. -/
  | leaving
  | notifying
  | finished
deriving DecidableEq

/-- A closure handed to a driver: it resumes a coroutine that belongs to the
call `owner`, and counts on the gate the awaiter captured. -/
structure Closure where
  owner : ℕ
  gate : Option ℕ
  pool : ℕ
  phase : ClosurePhase
  savedTL : Option ℕ := none
deriving DecidableEq

/-- An awaiter captures the gate current on the thread that builds it. -/
structure Awaiter where
  pool : ℕ
  gate : Option ℕ
deriving DecidableEq

/-- Users' threads, and one driver thread for each pool. -/
inductive ThreadId where
  | user (thread : ℕ)
  | driver (pool : ℕ)
deriving DecidableEq

structure Thread where
  tlSyncWaitGate : Option ℕ := none
  stack : List Frame := []
deriving DecidableEq

structure State where
  threads : ThreadId → Thread := fun _ => {}
  queues : ℕ → List ℕ := fun _ => []
  calls : List Call := []
  closures : List Closure := []
  awaiters : List Awaiter := []

inductive Action where
  /-- User code builds an awaiter. -/
  | build (thread : ThreadId) (pool : ℕ)
  /-- User code calls `syncWait`. -/
  | syncWait (thread : ThreadId)
  /-- A coroutine awaits one of the awaiters built so far. -/
  | await (thread : ThreadId) (awaiter : ℕ)
  /-- The wrapper runs to its end. -/
  | complete (thread : ThreadId)
  /-- A driver takes the front of its queue. -/
  | take (pool : ℕ)
  /-- The next step of the code in this module. -/
  | advance (thread : ThreadId)
  /-- A wait ends by itself. -/
  | unblock (thread : ThreadId)
deriving DecidableEq

/-! ## Steps -/

def State.modifyThread (state : State) (thread : ThreadId)
    (change : Thread → Thread) : State :=
  { state with
    threads := Function.update state.threads thread
      (change (state.threads thread)) }

def State.modifyCall (state : State) (call : ℕ) (change : Call → Call) :
    State :=
  { state with calls := state.calls.modify call change }

def State.modifyClosure (state : State) (closure : ℕ)
    (change : Closure → Closure) : State :=
  { state with closures := state.closures.modify closure change }

def Call.at (call : Call) (phase : CallPhase) : Call := { call with phase }

def Closure.at (closure : Closure) (phase : ClosurePhase) : Closure :=
  { closure with phase }

@[simp] theorem Call.at_phase (call : Call) (phase : CallPhase) :
    (call.at phase).phase = phase := rfl

@[simp] theorem Call.at_gate (call : Call) (phase : CallPhase) :
    (call.at phase).gate = call.gate := rfl

@[simp] theorem Closure.at_phase (closure : Closure) (phase : ClosurePhase) :
    (closure.at phase).phase = phase := rfl

@[simp] theorem Closure.at_owner (closure : Closure) (phase : ClosurePhase) :
    (closure.at phase).owner = closure.owner := rfl

@[simp] theorem Closure.at_gate (closure : Closure) (phase : ClosurePhase) :
    (closure.at phase).gate = closure.gate := rfl

/-- `fetch_add` on the gate. -/
def Call.countIn (call : Call) : Call :=
  { call with gate := { call.gate with count := call.gate.count + 1 } }

/-- `fetch_sub` on the gate. -/
def Call.countOut (call : Call) : Call :=
  { call with gate := { call.gate with count := call.gate.count - 1 } }

/-- `fetch_or` of the done bit. -/
def Call.setDone (call : Call) : Call :=
  { call with gate := { call.gate with done := true } }

/-- Leave the frame on top of the stack. -/
def Thread.pop (thread : Thread) : Thread :=
  { thread with stack := thread.stack.tail }

/-- The resume that runs in a frame moves on. -/
def State.setResume (state : State) (frame : Frame) (resume : Resume) :
    State :=
  match frame with
  | .call call => state.modifyCall call (·.at (.resuming resume))
  | .closure closure => state.modifyClosure closure (·.at (.resuming resume))

/-- The call whose coroutine runs in a frame. -/
def State.coroutine (state : State) : Frame → Option ℕ
  | .call call =>
      match state.calls[call]? with
      | some { phase := .resuming .running, .. } => some call
      | _ => none
  | .closure closure =>
      match state.closures[closure]? with
      | some { owner, phase := .resuming .running, .. } => some owner
      | _ => none

/-- The frame is the body of an awaiter. -/
def State.inBody (state : State) : Frame → Bool
  | .call _ => false
  | .closure closure =>
      (state.closures[closure]?).any fun closure => closure.phase == .body

/-- The thread is in user code: outside everything, in a body or in a
coroutine. -/
def State.userCode (state : State) (thread : ThreadId) : Bool :=
  match (state.threads thread).stack with
  | [] =>
      match thread with
      | .user _ => true
      | .driver _ => false
  | frame :: _ => state.inBody frame || (state.coroutine frame).isSome

/-- Count in on the gate an awaiter captured, if any. -/
def State.countIn (state : State) : Option ℕ → State
  | none => state
  | some gate => state.modifyCall gate Call.countIn

/-- `CoroDriver::submit`. -/
def State.submit (state : State) (closure : ℕ) : State :=
  match state.closures[closure]? with
  | none => state
  | some { pool, .. } =>
      { state.modifyClosure closure (·.at .queued) with
        queues := Function.update state.queues pool
          (state.queues pool ++ [closure]) }

/-- `await_suspend` up to the submission. -/
def State.awaitSuspend (state : State) (frame : Frame) (owner : ℕ)
    (awaiter : Awaiter) : State :=
  let counted := state.countIn awaiter.gate
  { counted.setResume frame (.submitting state.closures.length) with
    closures :=
      (counted.setResume frame (.submitting state.closures.length)).closures ++
        [{ owner, gate := awaiter.gate, pool := awaiter.pool
           phase := .pending frame }] }

/-- The next step of `syncWait` itself. -/
def State.advanceCall (state : State) (thread : ThreadId) (index : ℕ)
    (call : Call) : Option State :=
  match call.phase with
  | .resuming .running => none
  | .resuming (.submitting closure) =>
      some ((state.setResume (.call index) .unwinding).submit closure)
  | .resuming .unwinding =>
      some ((state.modifyThread thread fun thread =>
        { thread with tlSyncWaitGate := call.savedTL }).modifyCall index
          (·.at .load))
  | .load => some (state.modifyCall index (·.at (.loaded call.gate)))
  | .loaded seen =>
      if seen.final then
        some ((state.modifyThread thread Thread.pop).modifyCall index
          (·.at .returned))
      else if call.gate = seen then
        some (state.modifyCall index (·.at (.blocked seen)))
      else some (state.modifyCall index (·.at .load))
  | .blocked _ => none
  | .returned => none

/-- Whoever is blocked on the gate loads it again. -/
def Call.notify (call : Call) : Call :=
  match call.phase with
  | .blocked _ => call.at .load
  | _ => call

/-- The next step of a closure on its driver. -/
def State.advanceClosure (state : State) (thread : ThreadId) (index : ℕ)
    (closure : Closure) : Option State :=
  match closure.phase with
  | .pending _ => none
  | .queued => none
  | .body => some (state.setResume (.closure index) .running)
  | .resuming .running => none
  | .resuming (.submitting submitted) =>
      some ((state.setResume (.closure index) .unwinding).submit submitted)
  | .resuming .unwinding =>
      match closure.gate with
      | none =>
          some ((state.modifyThread thread Thread.pop).modifyClosure index
            (·.at .finished))
      | some _ =>
          some ((state.modifyThread thread fun thread =>
            { thread with tlSyncWaitGate := closure.savedTL }).modifyClosure
              index (·.at .leaving))
  | .leaving =>
      match closure.gate with
      | none => none
      | some gate =>
          match state.calls[gate]? with
          | none => none
          | some call =>
              let left := state.modifyCall gate Call.countOut
              if call.gate.count = 1 ∧ call.gate.done = true then
                some (left.modifyClosure index (·.at .notifying))
              else
                some ((left.modifyThread thread Thread.pop).modifyClosure index
                  (·.at .finished))
  | .notifying =>
      match closure.gate with
      | none => none
      | some gate =>
          some (((state.modifyCall gate Call.notify).modifyThread thread
            Thread.pop).modifyClosure index (·.at .finished))
  | .finished => none

def step (state : State) : Action → Option (State × Option Unit)
  | .build thread pool =>
      if state.userCode thread then
        some ({ state with
          awaiters := state.awaiters ++
            [{ pool, gate := (state.threads thread).tlSyncWaitGate }] }, none)
      else none
  | .syncWait thread =>
      if state.userCode thread then
        some ({ state.modifyThread thread fun thread =>
            { tlSyncWaitGate := some state.calls.length
              stack := .call state.calls.length :: thread.stack } with
          calls := state.calls ++
            [{ savedTL := (state.threads thread).tlSyncWaitGate }] }, none)
      else none
  | .await thread index => do
      let frame ← (state.threads thread).stack.head?
      let owner ← state.coroutine frame
      let awaiter ← state.awaiters[index]?
      return (state.awaitSuspend frame owner awaiter, none)
  | .complete thread => do
      let frame ← (state.threads thread).stack.head?
      let owner ← state.coroutine frame
      return ((state.modifyCall owner Call.setDone).setResume frame .unwinding,
        none)
  | .take pool =>
      match (state.threads (.driver pool)).stack, state.queues pool with
      | [], index :: rest => do
          let closure ← state.closures[index]?
          let tl := (state.threads (.driver pool)).tlSyncWaitGate
          let taken := { state with
            queues := Function.update state.queues pool rest }
          return ((taken.modifyThread (.driver pool) fun _ =>
              { tlSyncWaitGate := closure.gate.or tl
                stack := [.closure index] }).modifyClosure index
                fun closure => { closure with phase := .body, savedTL := tl },
            none)
      | _, _ => none
  | .advance thread => do
      match ← (state.threads thread).stack.head? with
      | .call index =>
          let call ← state.calls[index]?
          let after ← state.advanceCall thread index call
          return (after, none)
      | .closure index =>
          let closure ← state.closures[index]?
          let after ← state.advanceClosure thread index closure
          return (after, none)
  | .unblock thread => do
      match ← (state.threads thread).stack.head? with
      | .call index =>
          let call ← state.calls[index]?
          return (state.modifyCall index fun _ => call.notify, none)
      | .closure _ => none

/-- Any number of calls, awaiters, pools and nestings. -/
def coroutines : Machine State Action Unit := ⟨step⟩

/-! ## The completion gate -/

/-- A driver is inside the resume of a coroutine. -/
def Closure.inside (closure : Closure) : Bool :=
  match closure.phase with
  | .resuming _ => true
  | _ => false

/-- The closure has left its resume and will still count itself out of the
gate, or notify it. -/
def Closure.notifies (closure : Closure) (gate : ℕ) : Bool :=
  closure.gate == some gate &&
    (closure.phase == .leaving || closure.phase == .notifying)

/-- The wrapper frame of a call goes when no driver is inside a coroutine of
the call any more, and a call whose wrapper is done is not blocked for ever. -/
structure GateSound (state : State) : Prop where
  outlived : ∀ index call, state.calls[index]? = some call →
    call.phase = .returned → ∀ closure ∈ state.closures,
      closure.owner = index → closure.inside = false
  awake : ∀ index call seen, state.calls[index]? = some call →
    call.phase = .blocked seen → call.gate.done = true →
    (∀ closure ∈ state.closures, closure.owner = index →
      closure.inside = false) →
    ∃ closure ∈ state.closures, closure.notifies index = true

/-! ## Awaiters built outside -/

/-- An awaiter built before `syncWait`, awaited inside. -/
def outsideAwaiter : List Action :=
  [.build (.user 0) 0, .syncWait (.user 0), .await (.user 0) 0,
    .advance (.user 0), .advance (.user 0), .take 0, .advance (.driver 0)]

/-- The caller blocks before the driver completes the wrapper. -/
def blocksFirst : List Action :=
  outsideAwaiter ++ [.advance (.user 0), .advance (.user 0),
    .complete (.driver 0), .advance (.driver 0)]

/-- The caller loads the gate while the driver is on its way back. -/
def returnsFirst : List Action :=
  outsideAwaiter ++ [.complete (.driver 0), .advance (.user 0),
    .advance (.user 0)]

/-- Both halves fail: the caller sleeps on a gate that nobody will notify, and
the wrapper frame goes while the driver is inside. -/
theorem outsideAwaiter_not_gateSound :
    (∃ trace state, Reaches coroutines {} trace state ∧
      ∃ call seen, state.calls[0]? = some call ∧
        call.phase = .blocked seen ∧ call.gate.done = true ∧
        ∀ closure ∈ state.closures, closure.phase = .finished) ∧
    ∃ trace state, Reaches coroutines {} trace state ∧
      ∃ call closure, state.calls[0]? = some call ∧
        call.phase = .returned ∧ closure ∈ state.closures ∧
        closure.owner = 0 ∧ closure.inside = true := by
  constructor
  · obtain ⟨trace, state, run, hcheck⟩ :=
      reaches_of_check coroutines {} blocksFirst
        (fun _ state => decide (state.calls =
            [{ gate := { done := true, count := 0 }
               phase := .blocked {}
               savedTL := none }]) &&
          state.closures.all fun closure => closure.phase == .finished)
        (by decide +kernel)
    simp only [Bool.and_eq_true, decide_eq_true_eq, List.all_eq_true,
      beq_iff_eq] at hcheck
    exact ⟨trace, state, run, _, _, by rw [hcheck.1]; rfl, rfl, rfl, hcheck.2⟩
  · obtain ⟨trace, state, run, hcheck⟩ :=
      reaches_of_check coroutines {} returnsFirst
        (fun _ state => decide (state.calls =
            [{ gate := { done := true, count := 0 }
               phase := .returned
               savedTL := none }]) &&
          state.closures.any fun closure =>
            closure.owner == 0 && closure.inside)
        (by decide +kernel)
    simp only [Bool.and_eq_true, decide_eq_true_eq, List.any_eq_true,
      beq_iff_eq] at hcheck
    obtain ⟨hcalls, closure, hmem, howner, hinside⟩ := hcheck
    exact ⟨trace, state, run, _, closure, by rw [hcalls]; rfl, rfl, hmem,
      howner, hinside⟩

end Citor.SyncWait
