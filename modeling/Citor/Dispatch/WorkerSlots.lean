import Mathlib

/-!
# The slots of the workers

A background worker owns one slot of its pool.  The producer and the worker
both write the slot's mailbox word, the descriptor pointer next to it goes along
with a publication, and the claim word says up to which generation the rank has
been taken.  The locals of `workerMainLoop` survive from one phase to the next.
What the descriptors hold, and what a worker does with them, is left to the
models that use the slots.
-/

namespace Citor.WorkerSlots

/-! ## The mailbox word -/

/-- The mailbox word of a slot: phases are counted instead of shifted, and the
flag bits are kept apart.  `desc` is no part of the word; it is what a model
keeps of the descriptor published with it. -/
structure MailboxWord (Desc : Type) where
  generation : ℕ
  shutdown : Bool
  reuse : Bool
  skipClaim : Bool
  done : Bool
  acked : Bool
  desc : Desc
  deriving DecidableEq, Repr

/-- A word whose descriptor is read on its own. -/
abbrev Mailbox := MailboxWord Unit

namespace MailboxWord

variable {Desc : Type}

/-- The word before the first dispatch. -/
def zero [Inhabited Desc] : MailboxWord Desc :=
  ⟨0, false, false, false, false, false, default⟩

variable (mailbox : MailboxWord Desc)

/-- The word under `kSeenPhaseMask`. -/
def seenPhase : MailboxWord Desc :=
  { mailbox with done := false, acked := false }

/-- The word without `kDoneBit`, which the chain wake compares. -/
def chainPhase : MailboxWord Desc :=
  { mailbox with done := false }

/-- The word without `kAckedBit`, which the join compares. -/
def withoutAck : MailboxWord Desc :=
  { mailbox with acked := false }

def doneVal : MailboxWord Desc :=
  { mailbox with done := true }

def doneAcked : MailboxWord Desc :=
  { mailbox with done := true, acked := true }

/-- `fetch_or(kAckedBit)`. -/
def withAck : MailboxWord Desc :=
  { mailbox with acked := true }

/-- `coldCollapseDispatch`, for a descriptor of the given capability. -/
@[simp] def collapses (coldCollapseCapable : Bool) : Bool :=
  coldCollapseCapable && !mailbox.skipClaim

/-- `coldCollapseDispatch`, where `desc` says whether the descriptor published
with the word wired `workerStateBase`. -/
def coldCollapseDispatch (mailbox : MailboxWord Bool) : Bool :=
  mailbox.collapses mailbox.desc

/-- The stamp behind a share of `mailbox`, made on the word `current`: a
compare-exchange where the producer may have stamped the rank itself, a plain
store elsewhere.  A lost stamp gives `none`. -/
def stampDone [DecidableEq Desc] (current : MailboxWord Desc)
    (coldCollapseDispatch : Bool) : Option (MailboxWord Desc) :=
  if coldCollapseDispatch then
    if current = mailbox then some mailbox.doneAcked else none
  else some mailbox.doneVal

@[simp] theorem doneVal_seenPhase :
    mailbox.doneVal.seenPhase = mailbox.seenPhase := rfl

@[simp] theorem doneAcked_seenPhase :
    mailbox.doneAcked.seenPhase = mailbox.seenPhase := rfl

@[simp] theorem withAck_seenPhase :
    mailbox.withAck.seenPhase = mailbox.seenPhase := rfl

@[simp] theorem doneVal_done : mailbox.doneVal.done = true := rfl

@[simp] theorem doneAcked_done : mailbox.doneAcked.done = true := rfl

@[simp] theorem withAck_done : mailbox.withAck.done = mailbox.done := rfl

@[simp] theorem doneVal_shutdown :
    mailbox.doneVal.shutdown = mailbox.shutdown := rfl

@[simp] theorem doneAcked_shutdown :
    mailbox.doneAcked.shutdown = mailbox.shutdown := rfl

@[simp] theorem withAck_shutdown :
    mailbox.withAck.shutdown = mailbox.shutdown := rfl

@[simp] theorem doneVal_generation :
    mailbox.doneVal.generation = mailbox.generation := rfl

@[simp] theorem doneAcked_generation :
    mailbox.doneAcked.generation = mailbox.generation := rfl

@[simp] theorem withAck_generation :
    mailbox.withAck.generation = mailbox.generation := rfl

@[simp] theorem doneVal_coldCollapseDispatch (mailbox : MailboxWord Bool) :
    mailbox.doneVal.coldCollapseDispatch = mailbox.coldCollapseDispatch := rfl

@[simp] theorem doneAcked_coldCollapseDispatch (mailbox : MailboxWord Bool) :
    mailbox.doneAcked.coldCollapseDispatch = mailbox.coldCollapseDispatch :=
  rfl

@[simp] theorem withAck_coldCollapseDispatch (mailbox : MailboxWord Bool) :
    mailbox.withAck.coldCollapseDispatch = mailbox.coldCollapseDispatch := rfl

/-- A phase determines what the mask leaves. -/
theorem of_seenPhase {left right : MailboxWord Desc}
    (hphase : left.seenPhase = right.seenPhase) :
    left.generation = right.generation ∧ left.reuse = right.reuse ∧
      left.skipClaim = right.skipClaim := by
  simp only [seenPhase, mk.injEq] at hphase
  exact ⟨hphase.1, hphase.2.2.1, hphase.2.2.2.1⟩

theorem shutdown_of_seenPhase {left right : MailboxWord Desc}
    (hphase : left.seenPhase = right.seenPhase) :
    left.shutdown = right.shutdown := by
  change left.seenPhase.shutdown = right.seenPhase.shutdown
  rw [hphase]

theorem coldCollapseDispatch_of_seenPhase {left right : MailboxWord Bool}
    (hphase : left.seenPhase = right.seenPhase) :
    left.coldCollapseDispatch = right.coldCollapseDispatch := by
  change left.seenPhase.coldCollapseDispatch =
    right.seenPhase.coldCollapseDispatch
  rw [hphase]

/-- A word that the join accepts is stamped, in the phase it waits for. -/
theorem of_withoutAck {mailbox published : MailboxWord Desc}
    (hdone : mailbox.withoutAck = published.doneVal) :
    mailbox.done = true ∧ mailbox.generation = published.generation := by
  simp only [withoutAck, doneVal, mk.injEq] at hdone
  exact ⟨hdone.2.2.2.2.1, hdone.1⟩

/-- A stamp leaves the phase and sets the done bit; a compare-exchange found
the word as it was. -/
theorem of_stampDone [DecidableEq Desc] {mailbox current : MailboxWord Desc}
    {coldCollapseDispatch : Bool} {stamped : MailboxWord Desc}
    (hstamp : mailbox.stampDone current coldCollapseDispatch = some stamped) :
    stamped.seenPhase = mailbox.seenPhase ∧ stamped.done = true ∧
      (coldCollapseDispatch = true → current = mailbox) := by
  cases coldCollapseDispatch with
  | false =>
      obtain rfl : mailbox.doneVal = stamped := by
        simpa [stampDone] using hstamp
      simp
  | true =>
      obtain ⟨hsame, rfl⟩ :
          current = mailbox ∧ mailbox.doneAcked = stamped := by
        simpa [stampDone] using hstamp
      simp [hsame]

/-- A stamp is lost by a compare-exchange alone. -/
theorem of_stampDone_none [DecidableEq Desc]
    {mailbox current : MailboxWord Desc} {coldCollapseDispatch : Bool}
    (hlost : mailbox.stampDone current coldCollapseDispatch = none) :
    coldCollapseDispatch = true ∧ current ≠ mailbox := by
  cases coldCollapseDispatch with
  | false => simp [stampDone] at hlost
  | true => simpa [stampDone] using hlost

/-- A word that differs under the seen mask differs under the chain mask. -/
theorem chainPhase_ne_of_seenPhase_ne {left right : MailboxWord Desc}
    (hphase : left.seenPhase ≠ right.seenPhase) :
    left.chainPhase ≠ right.chainPhase := by
  intro hchain
  apply hphase
  exact congrArg
    (fun word : MailboxWord Desc => { word with acked := false }) hchain

end MailboxWord

/-! ## Claims and dispatches -/

/-- `tryClaimRank`: true for the first caller of a generation. -/
def tryClaimRank (claimedAt generation : ℕ) : Bool :=
  claimedAt < generation

/-- `skipColdCollapse`. -/
def skipColdCollapse (participants : ℕ)
    (lowLatencyActive hotReuseMultiBlock coldCollapseCapable : Bool) : Bool :=
  (lowLatencyActive || hotReuseMultiBlock) && 2 < participants &&
    coldCollapseCapable

/-- What the producer decides for a dispatch. -/
structure Dispatch where
  generation : ℕ
  reuseSafe : Bool
  skipColdCollapse : Bool
  deriving DecidableEq, Repr

section Dispatches

variable {Desc : Type} (dispatch : Dispatch)

def Dispatch.publishedWith (desc : Desc) : MailboxWord Desc where
  generation := dispatch.generation
  shutdown := false
  reuse := dispatch.reuseSafe
  skipClaim := dispatch.skipColdCollapse
  done := false
  acked := false
  desc := desc

/-- `publishedMb`. -/
def Dispatch.publishedMb : Mailbox := dispatch.publishedWith ()

/-- `doneSentinelMb`. -/
def Dispatch.doneSentinelMb : Mailbox := dispatch.publishedMb.doneVal

end Dispatches

/-- What the producers keep for a pool. -/
structure PoolControl (DescId : Type) where
  generation : ℕ
  lastPublishedDesc : Option DescId
  deriving DecidableEq, Repr

/-- The head of `dispatchOneStaticLockedBody`. -/
def PoolControl.dispatch {DescId : Type} [DecidableEq DescId]
    (control : PoolControl DescId) (participants : ℕ) (desc : DescId)
    (reuseHint multiBlock lowLatencyActive coldCollapseCapable : Bool) :
    Dispatch :=
  let reuseSafe := reuseHint && control.lastPublishedDesc = some desc
  { generation := control.generation + 1
    reuseSafe := reuseSafe
    skipColdCollapse := skipColdCollapse participants lowLatencyActive
      (reuseSafe && multiBlock) coldCollapseCapable }

/-! ## Slots -/

/-- The words of a background slot; `coldStamped` is its bit of
`m_coldStampedMask`. -/
structure Slot (DescId : Type) where
  mailbox : Mailbox
  mailboxDesc : Option DescId
  claimedAt : ℕ
  coldStamped : Bool

/-- What `workerMainLoop` keeps from one phase to the next. -/
structure Worker (DescId Entry : Type) where
  lastSeen : Mailbox
  cachedDesc : Option DescId
  cachedWorkerEntry : Entry
  cachedColdCollapse : Bool

section Slots

variable {DescId Entry : Type} (worker : Worker DescId Entry)

def Worker.coldCollapseDispatch (mailbox : Mailbox) : Bool :=
  mailbox.collapses worker.cachedColdCollapse

/-- The descriptor of a new phase: under the reuse bit the cached one. -/
def Worker.chooseDesc (slot : Slot DescId) (mailbox : Mailbox) :
    Option DescId :=
  if mailbox.reuse && worker.cachedDesc.isSome then worker.cachedDesc
  else slot.mailboxDesc

theorem Worker.chooseDesc_full {slot : Slot DescId} {mailbox : Mailbox}
    (hfull : mailbox.reuse = false) :
    worker.chooseDesc slot mailbox = slot.mailboxDesc := by
  simp [chooseDesc, hfull]

theorem Worker.chooseDesc_reuse {slot : Slot DescId} {mailbox : Mailbox}
    {desc : DescId} (hreuse : mailbox.reuse = true)
    (hcached : worker.cachedDesc = some desc) :
    worker.chooseDesc slot mailbox = some desc := by
  simp [chooseDesc, hreuse, hcached]

/-- A slot before the first dispatch. -/
def Slot.fresh : Slot DescId where
  mailbox := .zero
  mailboxDesc := none
  claimedAt := 0
  coldStamped := false

/-- The locals before the first dispatch, around an empty `workerEntry`. -/
def Worker.fresh (workerEntry : Entry) : Worker DescId Entry where
  lastSeen := .zero
  cachedDesc := none
  cachedWorkerEntry := workerEntry
  cachedColdCollapse := false

end Slots

end Citor.WorkerSlots
