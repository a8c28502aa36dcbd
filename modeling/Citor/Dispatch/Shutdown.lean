import Citor.Core.Interleaving
import Citor.Dispatch.SlotSoundness

/-!
# Shutting a pool down

`shutdownAndJoin` clears the active job, stamps every worker's mailbox with
the shutdown bit, bumps the futex word, wakes everybody and joins the worker
threads.  Workers may be anywhere in their main loop by then, and one that is
late for a cold-collapsed dispatch still reads the descriptor of that
dispatch, which belongs to the thread that dispatched.
-/

namespace Citor.Shutdown

open Citor.Interleaving
open Citor.WorkerLoop
open WorkerSlots (MailboxWord)

/-- What the descriptor behind `mailboxDesc` holds: what was published with
the mailbox, or what a `parallelFor` of the same thread on another pool wrote
over it, `workerStateBase` of that pool included. -/
inductive Descriptor
  | published
  | rewritten
  deriving DecidableEq, Repr

/-- Where `shutdownAndJoin` stands. -/
inductive CloserPc
  | clearJob
  | orGeneration
  | loadMailbox (slot : ℕ)
  | storeMailbox (slot : ℕ) (prev : Mailbox)
  | loadWord
  | storeWord (word : ℕ)
  | wakeAll
  | join (slot : ℕ)
  | returned
  deriving DecidableEq, Repr

structure State where
  control : Control
  /-- `kShutdownBit` of `m_control.generation`. -/
  generationShutdown : Bool
  slots : ℕ → Slot
  descriptor : Descriptor
  /-- The claim words of the pool that rewrote the descriptor. -/
  claimedElsewhere : ℕ → ℕ
  closer : CloserPc

inductive Action
  /-- The next atomic operation of `shutdownAndJoin`. -/
  | close
  /-- The next atomic operation of a worker. -/
  | worker (slot : ℕ)
  | leaveSpin (slot : ℕ)
  /-- A worker's `futexWakePrivate(2)`. -/
  | chainWake (slot : ℕ) (released : List ℕ)
  /-- A futex wait returns by itself. -/
  | interrupt (slot : ℕ)
  /-- The dispatching thread calls `parallelFor` on another pool. -/
  | rewrite
  deriving DecidableEq, Repr

/-- Who acts: the thread in `shutdownAndJoin`, a worker, the kernel or a
thread that uses other pools. -/
inductive Party
  | closer
  | worker (slot : ℕ)
  | kernel
  | outsider
  deriving DecidableEq, Repr

def Action.owner : Action → Party
  | .close => .closer
  | .worker slot | .leaveSpin slot | .chainWake slot _ => .worker slot
  | .interrupt _ => .kernel
  | .rewrite => .outsider

/-! ## The steps -/

/-- `shutdownMb`: the next phase with the flags of the old one. -/
def shutdownMb (prev : Mailbox) : Mailbox :=
  { prev with generation := prev.generation + 1, shutdown := true }

/-- A worker enters with a new phase.  With the reuse bit it goes by what it
cached; otherwise it reads the descriptor, whose `workerStateBase` says on
whose words the rank is claimed. -/
def State.enter (state : State) (index : ℕ) (mailbox : Mailbox) : State :=
  let slot := state.slots index
  if mailbox.reuse = true ∨ state.descriptor = .published then
    { state with
      slots := Function.update state.slots index (slot.claim mailbox) }
  else
    let claimed := { slot with claimedAt := state.claimedElsewhere index }.claim
      { mailbox with desc := true }
    { state with
      slots := Function.update state.slots index { slot with pc := claimed.pc }
      claimedElsewhere := Function.update state.claimedElsewhere index
        claimed.claimedAt }

/-- The next atomic operation of `shutdownAndJoin`. -/
def stepCloser (participants : ℕ) (state : State) : Option State :=
  match state.closer with
  | .clearJob => some { state with
      control := { state.control with activeJob := false }
      closer := .orGeneration }
  | .orGeneration => some { state with
      generationShutdown := true
      closer := .loadMailbox 1 }
  | .loadMailbox slot =>
      if slot < participants then some { state with
        closer := .storeMailbox slot (state.slots slot).mailbox }
      else some { state with closer := .loadWord }
  | .storeMailbox slot prev => some { state with
      slots := Function.update state.slots slot { state.slots slot with
        mailbox := shutdownMb prev }
      closer := .loadMailbox (slot + 1) }
  | .loadWord => some { state with
      closer := .storeWord state.control.futexWord }
  | .storeWord word => some { state with
      control := { state.control with futexWord := word + 1 }
      closer := .wakeAll }
  | .wakeAll => some { state with
      slots := fun index => (state.slots index).rouse
      closer := .join 1 }
  | .join slot =>
      if slot < participants then
        if (state.slots slot).pc = .exited then
          some { state with closer := .join (slot + 1) }
        else none
      else some { state with closer := .returned }
  | .returned => none

/-- The next atomic operation of a worker. -/
def stepWorker (participants : ℕ) (state : State) (index : ℕ) : Option State :=
  match (state.slots index).pc with
  | .enter mailbox => some (state.enter index mailbox)
  | _ => ((state.slots index).advance state.control participants).map
      fun after => { state with
        slots := Function.update state.slots index after }

/-- A pool of `participants` that is being destroyed. -/
def shutdownAndJoin (participants : ℕ) : Machine State Action Empty where
  step state
    | .close => (stepCloser participants state).map (·, none)
    | .worker slot =>
        if 1 ≤ slot ∧ slot < participants then
          (stepWorker participants state slot).map (·, none)
        else none
    | .leaveSpin slot =>
        if 1 ≤ slot ∧ slot < participants then
          (state.slots slot).leaveSpin.map fun after =>
            ({ state with slots := Function.update state.slots slot after },
              none)
        else none
    | .chainWake slot released =>
        match (state.slots slot).pc with
        | .chainWake mailbox =>
            if (1 ≤ slot ∧ slot < participants) ∧
                Releases participants 2 state.slots released then
              let left := Function.update state.slots slot
                { state.slots slot with
                  pc := examine (state.slots slot).lastSeen mailbox }
              some ({ state with slots := rouseReleased left released }, none)
            else none
        | _ => none
    | .interrupt slot =>
        if (1 ≤ slot ∧ slot < participants) ∧
            (state.slots slot).pc = .asleep then
          some ({ state with
            slots := Function.update state.slots slot
              (state.slots slot).rouse }, none)
        else none
    | .rewrite => some ({ state with descriptor := .rewritten }, none)

/-! ## States without a dispatch -/

/-- The producer, or the worker itself, has claimed the rank for the
mailbox's dispatch, which may be cold-collapsed. -/
def Lost (slot : Slot) (mailbox : Mailbox) : Prop :=
  mailbox.coldCollapseDispatch = true ∧ mailbox.generation ≤ slot.claimedAt

/-- A worker outside of every dispatch in progress: anywhere in its loop but
in a body, and late only for ranks that it has lost. -/
structure Quiet (futexWord : ℕ) (slot : Slot) : Prop where
  running : slot.mailbox.shutdown = false ∧ slot.lastSeen.shutdown = false
  stays : slot.pc.leaves = false
  idle : ∀ mailbox, slot.pc ≠ .body mailbox
  late : slot.Unprocessed ∨ slot.carried ≠ none → Lost slot slot.mailbox
  carrying : ∀ mailbox, slot.carried = some mailbox →
    mailbox.shutdown = false ∧ Lost slot mailbox
  chained : ∀ mailbox, slot.pc = .chainWake mailbox → mailbox.shutdown = false
  token : ∀ token, slot.pc = .recheck token ∨ slot.pc = .wait token →
    token ≤ futexWord

/-- The slots whose mailboxes carry the stamp. -/
def CloserPc.stamped : CloserPc → ℕ → Prop
  | .clearJob, _ | .orGeneration, _ => False
  | .loadMailbox next, slot | .storeMailbox next _, slot => slot < next
  | _, _ => True

/-- The futex word is bumped. -/
def CloserPc.bumped : CloserPc → Bool
  | .wakeAll | .join _ | .returned => true
  | _ => false

/-- Everybody has been woken. -/
def CloserPc.woke : CloserPc → Bool
  | .join _ | .returned => true
  | _ => false

/-- Along a shutdown: the stamp stays, no body runs, nobody parks any more once
the word is bumped and nobody sleeps once everybody has been woken, and
whoever leaves the loop has the stamp. -/
structure ShutdownSound (participants : ℕ) (state : State) : Prop where
  stamped : ∀ slot, 1 ≤ slot → slot < participants →
    state.closer.stamped slot → (state.slots slot).mailbox.shutdown = true
  idle : ∀ slot, 1 ≤ slot → slot < participants →
    ∀ mailbox, (state.slots slot).pc ≠ .body mailbox
  unparked : ∀ slot, 1 ≤ slot → slot < participants →
    state.closer.bumped = true →
    (state.slots slot).pc ≠ .wait state.control.futexWord
  awake : ∀ slot, 1 ≤ slot → slot < participants →
    state.closer.woke = true → (state.slots slot).pc ≠ .asleep
  observed : ∀ slot, 1 ≤ slot → slot < participants →
    (state.slots slot).pc = .exited →
    (state.slots slot).mailbox.shutdown = true

/-- Every worker has returned, and so has `shutdownAndJoin`. -/
def Complete (participants : ℕ) (state : State) : Prop :=
  state.closer = .returned ∧ ∀ slot, 1 ≤ slot → slot < participants →
    (state.slots slot).pc = .exited

/-- A late worker finds in its descriptor what was published with its
mailbox, unless it goes by what it cached. -/
def OwnDescriptor (state : State) : Action → Prop
  | .worker slot => ∀ mailbox, (state.slots slot).pc = .enter mailbox →
      mailbox.reuse = true ∨ state.descriptor = .published
  | _ => True

/-! ## The failing schedule -/

end Citor.Shutdown
