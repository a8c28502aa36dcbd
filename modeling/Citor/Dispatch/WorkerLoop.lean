import Citor.Dispatch.WorkerSlots

/-!
# The worker's main loop

A background worker owns one slot: the mailbox word, which the producer and
the worker both write, the claim word of the rank, and the low-latency epoch
the worker acknowledged last.  `workerMainLoop` looks for a new phase in the
mailbox, runs its share, stamps the word and otherwise spins, acknowledges
low-latency epochs or parks on the futex word.  A program counter stands in
front of the next atomic operation.
-/

namespace Citor.WorkerLoop

open WorkerSlots (MailboxWord tryClaimRank)

/-- A word with what matters of its descriptor: whether it wired
`workerStateBase`. -/
abbrev Mailbox := MailboxWord Bool

/-- What the workers read of `PoolControl`; `activeJob` says whether the
pointer is set. -/
structure Control where
  futexWord : ℕ
  hotSpinDepth : ℕ
  hotSpinEpoch : ℕ
  activeJob : Bool
  deriving DecidableEq, Repr

/-- Where a worker stands.  A carried mailbox is the local copy. -/
inductive WorkerPc
  /-- About to load the mailbox. -/
  | load
  /-- The local mailbox has the shutdown bit: about to load `activeJob`. -/
  | exitTest (mailbox : Mailbox)
  /-- A new phase: about to enter the worker entry, which claims the rank if
  the dispatch may cold-collapse. -/
  | enter (mailbox : Mailbox)
  /-- Running its rank's share. -/
  | body (mailbox : Mailbox)
  /-- About to stamp the mailbox. -/
  | stamp (mailbox : Mailbox)
  /-- The stamp was lost: about to set `kAckedBit`. -/
  | acknowledge (mailbox : Mailbox)
  /-- No new work: about to load `hotSpinDepth`. -/
  | probeDepth
  /-- Low-latency mode: about to load `hotSpinEpoch`, on the way to the spin
  or back to the mailbox. -/
  | loadEpoch (reload : Bool)
  | storeEpoch (epoch : ℕ) (reload : Bool)
  | spin
  /-- The spin budget is used up: about to load `hotSpinDepth` again. -/
  | recheckDepth
  | loadToken
  /-- About to recheck the mailbox with the park token in hand. -/
  | recheck (token : ℕ)
  /-- The rechecked mailbox has the shutdown bit: about to load `activeJob`. -/
  | parkTest (token : ℕ)
  /-- About to enter the futex wait. -/
  | wait (token : ℕ)
  | asleep
  /-- The futex wait returned: about to load the mailbox. -/
  | woken
  /-- About to propagate the wake. -/
  | chainWake (mailbox : Mailbox)
  | exited
  deriving DecidableEq, Repr

/-- A background slot and its worker. -/
structure Slot where
  mailbox : Mailbox
  claimedAt : ℕ
  hotSpinEpoch : ℕ
  lastSeen : Mailbox
  pc : WorkerPc
  deriving DecidableEq, Repr

/-- A slot before its worker's first step. -/
def Slot.fresh : Slot where
  mailbox := .zero
  claimedAt := 0
  hotSpinEpoch := 0
  lastSeen := .zero
  pc := .load

/-- The phase compare at the top of the loop. -/
def comparePhase (lastSeen mailbox : Mailbox) : WorkerPc :=
  if mailbox.seenPhase ≠ lastSeen.seenPhase then .enter mailbox
  else .probeDepth

/-- The top of the loop with a mailbox in hand. -/
def examine (lastSeen mailbox : Mailbox) : WorkerPc :=
  if mailbox.shutdown then .exitTest mailbox
  else comparePhase lastSeen mailbox

/-- The claim in front of the share. -/
def Slot.claim (slot : Slot) (mailbox : Mailbox) : Slot :=
  if mailbox.coldCollapseDispatch then
    if tryClaimRank slot.claimedAt mailbox.generation then
      { slot with claimedAt := mailbox.generation, pc := .body mailbox }
    else { slot with pc := .stamp mailbox }
  else { slot with pc := .body mailbox }

/-- The stamp behind the share.  The compare-exchange leaves the worker with
the word it stamped, the plain store sends it back to the mailbox. -/
def Slot.stampDone (slot : Slot) (mailbox : Mailbox) : Slot :=
  match mailbox.stampDone slot.mailbox mailbox.coldCollapseDispatch with
  | some stamped =>
      { slot with
        mailbox := stamped
        lastSeen := stamped
        pc := if mailbox.coldCollapseDispatch then examine stamped stamped
          else .load }
  | none => { slot with pc := .acknowledge mailbox }

/-- The next atomic operation of a worker.  A poll of the spin loop that finds
nothing stays in the loop; the chain wake touches other slots and is a step of
the pool. -/
def Slot.advance (control : Control) (participants : ℕ) (slot : Slot) :
    Option Slot :=
  match slot.pc with
  | .load => some { slot with pc := examine slot.lastSeen slot.mailbox }
  | .exitTest mailbox =>
      if control.activeJob then
        some { slot with pc := comparePhase slot.lastSeen mailbox }
      else some { slot with pc := .exited }
  | .enter mailbox => some (slot.claim mailbox)
  | .body mailbox => some { slot with pc := .stamp mailbox }
  | .stamp mailbox => some (slot.stampDone mailbox)
  | .acknowledge mailbox =>
      some { slot with
        mailbox := slot.mailbox.withAck
        lastSeen := mailbox.doneAcked
        pc := .load }
  | .probeDepth =>
      if control.hotSpinDepth ≠ 0 then
        some { slot with pc := .loadEpoch false }
      else some { slot with pc := .spin }
  | .loadEpoch reload =>
      some { slot with pc := .storeEpoch control.hotSpinEpoch reload }
  | .storeEpoch epoch reload =>
      some { slot with
        hotSpinEpoch := epoch
        pc := if reload then .load else .spin }
  | .spin =>
      if slot.mailbox ≠ slot.lastSeen then
        some { slot with pc := examine slot.lastSeen slot.mailbox }
      else some slot
  | .recheckDepth =>
      if control.hotSpinDepth ≠ 0 then
        some { slot with pc := .loadEpoch true }
      else some { slot with pc := .loadToken }
  | .loadToken => some { slot with pc := .recheck control.futexWord }
  | .recheck token =>
      if slot.mailbox ≠ slot.lastSeen then
        some { slot with pc := examine slot.lastSeen slot.mailbox }
      else if slot.mailbox.shutdown then
        some { slot with pc := .parkTest token }
      else some { slot with pc := .wait token }
  | .parkTest token =>
      if control.activeJob then some { slot with pc := .wait token }
      else some { slot with pc := .exited }
  | .wait token =>
      if control.futexWord = token then some { slot with pc := .asleep }
      else some { slot with pc := .woken }
  | .woken =>
      if slot.mailbox.chainPhase ≠ slot.lastSeen.chainPhase ∧
          slot.mailbox.shutdown = false ∧ 2 < participants then
        some { slot with pc := .chainWake slot.mailbox }
      else some { slot with pc := examine slot.lastSeen slot.mailbox }
  | .asleep | .chainWake _ | .exited => none

/-- The end of the spin budget. -/
def Slot.leaveSpin (slot : Slot) : Option Slot :=
  if slot.pc = .spin then some { slot with pc := .recheckDepth } else none

/-- The futex wait of a sleeping worker returns. -/
def Slot.rouse (slot : Slot) : Slot :=
  if slot.pc = .asleep then { slot with pc := .woken } else slot

/-- The waiters in `released` return from their futex wait. -/
def rouseReleased (slots : ℕ → Slot) (released : List ℕ) (index : ℕ) : Slot :=
  if index ∈ released then (slots index).rouse else slots index

/-- What the kernel may release for `futexWakePrivate(n)`: up to `n` different
waiters, and fewer than `n` only if no other worker waits. -/
def Releases (participants n : ℕ) (slots : ℕ → Slot) (released : List ℕ) :
    Prop :=
  released.Nodup ∧ (∀ index ∈ released, (slots index).pc = .asleep) ∧
    released.length ≤ n ∧
    (released.length = n ∨
      ∀ index < participants, 1 ≤ index → (slots index).pc = .asleep →
        index ∈ released)

instance (participants n : ℕ) (slots : ℕ → Slot) (released : List ℕ) :
    Decidable (Releases participants n slots released) :=
  inferInstanceAs (Decidable (_ ∧ _ ∧ _ ∧ _))

/-- A published phase the worker has not processed. -/
def Slot.Unprocessed (slot : Slot) : Prop :=
  slot.mailbox.seenPhase ≠ slot.lastSeen.seenPhase

instance (slot : Slot) : Decidable slot.Unprocessed :=
  inferInstanceAs (Decidable (_ ≠ _))

/-- Asleep, or about to enter a futex wait that the word lets through. -/
def Slot.Parked (futexWord : ℕ) (slot : Slot) : Prop :=
  slot.pc = .asleep ∨ slot.pc = .wait futexWord

instance (futexWord : ℕ) (slot : Slot) : Decidable (slot.Parked futexWord) :=
  inferInstanceAs (Decidable (_ ∨ _))

end Citor.WorkerLoop
