import Citor.Core.Interleaving

/-!
# Detached tasks and the destructor

`submitDetached` counts a task in and spawns a thread for it; the thread runs
the body, counts the task out under the mutex and only then destroys the
closure, which may own the last reference to the pool.  The destructor waits on
a condition variable until the count is zero.
-/

namespace Citor.DetachedTasks

open Citor.Interleaving

/-! ## Tasks -/

/-- Where the party that drives a task is: first the submitter, then, once
the spawn succeeded, the detached thread. -/
inductive Phase where
  /-- Counted in, in front of the spawn. -/
  | counted
  /-- The spawn threw: count out, lock, notify, unlock, rethrow. -/
  | spawnFailed
  | rolledBack
  | rollbackLocked
  | rollbackNotified
  | unwinding
  /-- The thread is about to read the token. -/
  | spawned
  | running
  /-- The body threw: lock, record, unlock. -/
  | threw
  | recording
  | recorded
  /-- The body is over or was skipped: lock, count out, notify, unlock. -/
  | finished
  | retiring
  | retired
  | notified
  /-- In front of `owner.reset()`. -/
  | released
  | done
deriving DecidableEq

/-- What a step does to the pool. -/
inductive Op where
  | lock
  | unlock
  | countOut
  | notify
  | record
  | leave
deriving DecidableEq

/-- The code behind the spawn, the body and the token: the next operation of
the failure path of `submitDetached` and of `runDetached`. -/
def Phase.next : Phase → Option (Op × Phase)
  | .counted | .spawned | .running | .done => none
  | .spawnFailed => some (.countOut, .rolledBack)
  | .rolledBack => some (.lock, .rollbackLocked)
  | .rollbackLocked => some (.notify, .rollbackNotified)
  | .rollbackNotified => some (.unlock, .unwinding)
  | .unwinding => some (.leave, .done)
  | .threw => some (.lock, .recording)
  | .recording => some (.record, .recorded)
  | .recorded => some (.unlock, .finished)
  | .finished => some (.lock, .retiring)
  | .retiring => some (.countOut, .retired)
  | .retired => some (.notify, .notified)
  | .notified => some (.unlock, .released)
  | .released => some (.leave, .done)

/-- The call of `submitDetached` still uses the pool. -/
def Phase.submits : Phase → Bool
  | .counted | .spawnFailed | .rolledBack | .rollbackLocked
  | .rollbackNotified => true
  | _ => false

/-- Submitted and not counted out. -/
def Phase.inFlight : Phase → Bool
  | .counted | .spawnFailed | .spawned | .running | .threw | .recording
  | .recorded | .finished | .retiring => true
  | _ => false

/-- The task has used the pool for the last time. -/
def Phase.past : Phase → Bool
  | .unwinding | .released | .done => true
  | _ => false

/-- The party holds the mutex. -/
def Phase.holds : Phase → Bool
  | .rollbackLocked | .rollbackNotified | .recording | .recorded | .retiring
  | .retired | .notified => true
  | _ => false

/-- Counted out, with the notification to come. -/
def Phase.willNotify : Phase → Bool
  | .rolledBack | .rollbackLocked | .retired => true
  | _ => false

/-- A task, submitted inside the body of another one or from outside; `threw`
says that its body has thrown. -/
structure Task where
  submitter : Option ℕ
  phase : Phase := .counted
  threw : Bool := false
deriving DecidableEq

/-! ## The destructor -/

inductive Drain where
  | idle
  | locking
  /-- Holding the mutex, in front of the predicate. -/
  | checking
  | waiting
  /-- Awake, in front of the lock. -/
  | waking
  /-- The predicate held. -/
  | unlocking
  | drained
deriving DecidableEq

def Drain.holds : Drain → Bool
  | .checking | .unlocking => true
  | _ => false

/-- Who may hold the mutex. -/
inductive Holder where
  | task (task : ℕ)
  | drain
deriving DecidableEq

/-- The parties, and the threads outside, which submit tasks and may destroy
the pool. -/
inductive Party where
  | holder (holder : Holder)
  | outside
deriving DecidableEq

/-- The pool, as far as detached tasks go; `runner` is the task whose closure
runs the destructor, if it is one. -/
structure State where
  tasks : List Task := []
  inFlight : ℤ := 0
  mutex : Option Holder := none
  exception : Option ℕ := none
  drain : Drain := .idle
  runner : Option ℕ := none
deriving DecidableEq

inductive Event where
  /-- A task uses the pool. -/
  | touched (task : ℕ)
  /-- A task finds an exception to record. -/
  | recorded (task : ℕ)
  /-- A task uses the pool for the last time. -/
  | retired (task : ℕ)
deriving DecidableEq

inductive Action where
  | submit (submitter : Option ℕ)
  /-- The spawn succeeds, or throws. -/
  | spawn (task : ℕ) (succeeds : Bool)
  /-- The thread reads the token. -/
  | start (task : ℕ) (stopped : Bool)
  /-- The body returns, or throws. -/
  | finish (task : ℕ) (throws : Bool)
  | advance (task : ℕ)
  /-- The destructor starts, on a thread outside or in the closure of a
  task. -/
  | destroy (runner : Option ℕ)
  | drain
  /-- The wait of the destructor ends by itself. -/
  | wake
deriving DecidableEq

/-! ## Steps -/

def State.at (state : State) (index : ℕ) (phase : Phase) : State :=
  { state with
    tasks := state.tasks.modify index fun task => { task with phase } }

@[simp] theorem at_inFlight (state : State) (index : ℕ) (phase : Phase) :
    (state.at index phase).inFlight = state.inFlight := rfl

@[simp] theorem at_mutex (state : State) (index : ℕ) (phase : Phase) :
    (state.at index phase).mutex = state.mutex := rfl

@[simp] theorem at_exception (state : State) (index : ℕ) (phase : Phase) :
    (state.at index phase).exception = state.exception := rfl

@[simp] theorem at_drain (state : State) (index : ℕ) (phase : Phase) :
    (state.at index phase).drain = state.drain := rfl

/-- `notify_all` on the condition variable. -/
def State.notifyAll (state : State) : State :=
  if state.drain = .waiting then { state with drain := .waking } else state

/-- One operation of the party that drives a task. -/
def State.perform (state : State) (index : ℕ) (after : Phase) :
    Op → Option (State × Option Event)
  | .lock =>
      if state.mutex = none then
        some ({ state.at index after with mutex := some (.task index) },
          some (.touched index))
      else none
  | .unlock =>
      some ({ state.at index after with mutex := none },
        some (if after.past then .retired index else .touched index))
  | .countOut =>
      some ({ state.at index after with inFlight := state.inFlight - 1 },
        some (.touched index))
  | .notify => some (state.notifyAll.at index after, some (.touched index))
  | .record =>
      some ({ state.at index after with
        exception := state.exception.or (some index) },
        some (.recorded index))
  | .leave =>
      -- The closure is gone when a destructor it runs is.
      if state.runner = some index ∧ state.drain ≠ .drained then none
      else some (state.at index after, none)

/-- `waitForDetachedDrain`. -/
def State.advanceDrain (state : State) : Option State :=
  match state.drain with
  | .idle => none
  | .locking | .waking =>
      if state.mutex = none then
        some { state with drain := .checking, mutex := some .drain }
      else none
  | .checking =>
      if state.inFlight = 0 then some { state with drain := .unlocking }
      else some { state with drain := .waiting, mutex := none }
  | .waiting => none
  | .unlocking => some { state with drain := .drained, mutex := none }
  | .drained => none

/-- Nobody outside is in a call that still uses the pool: what the lifetime of
a C++ object asks for when its destructor starts. -/
def State.unused (state : State) : Bool :=
  state.tasks.all fun task => !(task.submitter == none && task.phase.submits)

/-- No call that the body of a task made is under way. -/
def State.returned (state : State) (index : ℕ) : Bool :=
  state.tasks.all fun task =>
    !(task.submitter == some index && task.phase.submits)

def step (state : State) : Action → Option (State × Option Event)
  | .submit submitter =>
      let allowed : Bool := match submitter with
        | none => state.drain == .idle
        | some body =>
            (state.tasks[body]?).any fun task => task.phase == .running
      if allowed then
        some ({ state with
          tasks := state.tasks ++ [{ submitter := submitter }]
          inFlight := state.inFlight + 1 }, some (.touched state.tasks.length))
      else none
  | .spawn index succeeds => do
      let task ← state.tasks[index]?
      if task.phase = .counted then
        return (state.at index (if succeeds then .spawned else .spawnFailed),
          none)
      else none
  | .start index stopped => do
      let task ← state.tasks[index]?
      if task.phase = .spawned then
        return (state.at index (if stopped then .finished else .running), none)
      else none
  | .finish index throws => do
      let task ← state.tasks[index]?
      if task.phase = .running ∧ state.returned index = true then
        return ({ state with
          tasks := state.tasks.modify index fun task =>
            { task with
              phase := if throws then .threw else .finished
              threw := task.threw || throws } }, none)
      else none
  | .advance index => do
      let task ← state.tasks[index]?
      let (op, after) ← task.phase.next
      state.perform index after op
  | .destroy runner =>
      let allowed : Bool := match runner with
        | none => true
        | some index => (state.tasks[index]?).any fun task =>
            task.phase == .released || task.phase == .unwinding
      if state.drain = .idle ∧ state.unused = true ∧ allowed = true then
        some ({ state with drain := .locking, runner }, none)
      else none
  | .drain => state.advanceDrain.map fun after => (after, none)
  | .wake =>
      if state.drain = .waiting then
        some ({ state with drain := .waking }, none)
      else none

/-- One pool, any number of tasks and nested submissions. -/
def detached : Machine State Action Event := ⟨step⟩

/-- Who takes an action. -/
def Action.owner : Action → Party
  | .submit none => .outside
  | .submit (some body) => .holder (.task body)
  | .spawn index _ | .start index _ | .finish index _ | .advance index =>
      .holder (.task index)
  | .destroy none => .outside
  | .destroy (some index) => .holder (.task index)
  | .drain | .wake => .holder .drain

/-- The task an event records an exception for. -/
def Event.records : Event → Option ℕ
  | .recorded index => some index
  | _ => none

/-- The task that uses the pool in an event. -/
def Event.task : Event → ℕ
  | .touched index | .recorded index | .retired index => index

/-! ## The lifecycle -/

/-- The count is the number of tasks in flight; the drain returns when every
task is past the pool; it does not sleep on a zero count unless somebody will
notify it; a closure that destroys the pool belongs to a task that is counted
out; and the exception kept is the first one recorded, by a task that threw. -/
structure DetachedSound (trace : List Event) (state : State) : Prop where
  counter : state.inFlight =
    (state.tasks.countP fun task => task.phase.inFlight : ℕ)
  drained : state.drain = .drained →
    ∀ task ∈ state.tasks, task.phase.past = true
  notified : state.drain = .waiting → state.inFlight = 0 →
    ∃ task ∈ state.tasks, task.phase.willNotify = true
  ownClosure : ∀ index, state.runner = some index →
    ∃ task, state.tasks[index]? = some task ∧ task.phase.inFlight = false
  latched : ∀ earlier later, trace = earlier ++ later →
    ∀ index, earlier.findSome? Event.records = some index →
      state.exception = some index
  thrown : ∀ index, state.exception = some index →
    trace.findSome? Event.records = some index ∧
      ∃ task, state.tasks[index]? = some task ∧ task.threw = true
  lastUse : ∀ earlier event later, trace = earlier ++ event :: later →
    .retired event.task ∉ earlier

end Citor.DetachedTasks
