import Citor.Dispatch.DequeOwners

/-!
# What holds of a slot and of its pool's producer

A worker carries a word that is either still posted by the dispatch in progress
or claimed by the producer that covered it; a word with its done bit set has
been seen by the worker.  So the producer does not get past a slot whose worker
runs a share, and does not claim its rank.  The producers of a pool are told
apart by its gate, and a context names the slot of the scope that is open.
-/

namespace Citor.DequeOwners

open Interleaving
open WorkerSlots (MailboxWord Mailbox Dispatch tryClaimRank)
open Reentrancy (ThreadId ThreadContext PoolShape)

/-! ## One slot -/

/-- The word a worker carries. -/
def WorkerPc.carried : WorkerPc → Option Mailbox
  | .load => none
  | .enter mailbox | .readEntry mailbox _ | .readBase mailbox _ _
  | .copy mailbox | .claim mailbox | .run mailbox | .share mailbox
  | .stamp mailbox _ | .acknowledge mailbox => some mailbox

/-- The word is the one in progress on its slot, or its rank is claimed. -/
def Live (posted : Option Job) (claimedAt : ℕ) (mailbox : Mailbox) : Prop :=
  (∃ job, posted = some job ∧ mailbox.generation = job.generation ∧
    mailbox.skipClaim = job.skipColdCollapse) ∨
  (mailbox.generation ≤ claimedAt ∧ mailbox.skipClaim = false)

/-- The worker waits for another word than this. -/
def Worker.HasSeen (worker : Worker) (mailbox : Mailbox) : Prop :=
  worker.pc = .load ∧ mailbox.seenPhase = worker.lastSeen.seenPhase

/-- A slot and its worker beside the dispatch that waits for the slot, `pending`,
and has put its word there, `posted`.  `bare` says that a dispatch has no
worker array. -/
structure SlotInv (bare : Job → Prop) (pending posted : Option Job)
    (slot : Slot) : Prop where
  carried : ∀ mailbox, slot.worker.pc.carried = some mailbox →
    Live posted slot.claimedAt mailbox
  mailbox : Live posted slot.claimedAt slot.mailbox ∨
    slot.worker.HasSeen slot.mailbox
  stamped : ∀ job, posted = some job → slot.mailbox.done = true →
    slot.mailbox.generation = job.generation →
    slot.worker.HasSeen slot.mailbox
  share : ∀ mailbox, slot.worker.pc = .share mailbox →
    ∃ job, pending = some job ∧ (job.generation ≤ slot.claimedAt ∨
      job.skipColdCollapse = true ∨ bare job)

/-- What the invariant reads of a slot is the same. -/
structure Slot.Alike (slot other : Slot) : Prop where
  mailbox : other.mailbox = slot.mailbox
  claimedAt : other.claimedAt = slot.claimedAt
  worker : other.worker = slot.worker

theorem Slot.Alike.refl (slot : Slot) : slot.Alike slot := ⟨rfl, rfl, rfl⟩

section Slots

variable {bare : Job → Prop} {pending posted : Option Job} {slot : Slot}
variable {mailbox : Mailbox}

theorem Live.claim {claimedAt later : ℕ} (hlive : Live posted claimedAt mailbox)
    (hle : claimedAt ≤ later) : Live posted later mailbox :=
  hlive.imp id fun ⟨hclaimed, hskip⟩ => ⟨hclaimed.trans hle, hskip⟩

/-- A word that nobody has claimed, or that cannot be covered, is posted. -/
theorem Live.of_open {claimedAt : ℕ} (hlive : Live posted claimedAt mailbox)
    (hopen : claimedAt < mailbox.generation ∨ mailbox.skipClaim = true) :
    ∃ job, posted = some job ∧ mailbox.generation = job.generation ∧
      mailbox.skipClaim = job.skipColdCollapse := by
  refine hlive.resolve_right fun ⟨hclaimed, hskip⟩ => ?_
  rcases hopen with hopen | hopen
  · omega
  · simp [hskip] at hopen

/-- When a dispatch is done with a slot, its word there is claimed. -/
theorem Live.close {job : Job} {claimedAt : ℕ}
    (hlive : Live (some job) claimedAt mailbox)
    (hclaimed : job.generation ≤ claimedAt)
    (hskip : job.skipColdCollapse = false) : Live none claimedAt mailbox := by
  rcases hlive with ⟨_, ⟨rfl⟩, hgeneration, hflag⟩ | hlive
  · exact .inr ⟨hgeneration ▸ hclaimed, hflag.trans hskip⟩
  · exact .inr hlive

namespace SlotInv

/-- A worker between shares moves on. -/
theorem move (hinv : SlotInv bare pending posted slot) {worker : Worker}
    (hcarried : worker.pc.carried = slot.worker.pc.carried)
    (hsome : slot.worker.pc.carried ≠ none)
    (hshare : ∀ mailbox, worker.pc ≠ .share mailbox) :
    SlotInv bare pending posted { slot with worker := worker } := by
  have hload : ∀ mailbox, ¬ slot.worker.HasSeen mailbox := by
    intro mailbox hseen
    simp [hseen.1, WorkerPc.carried] at hsome
  constructor
  · intro mailbox hsame
    exact hinv.carried mailbox (hcarried ▸ hsame)
  · exact .inl (hinv.mailbox.resolve_right (hload _))
  · intro job hposted hdone hgeneration
    exact absurd (hinv.stamped job hposted hdone hgeneration) (hload _)
  · intro mailbox hpc
    exact absurd hpc (hshare mailbox)

/-- A worker finds a new word. -/
theorem enter (hinv : SlotInv bare pending posted slot)
    (hnew : slot.mailbox.seenPhase ≠ slot.worker.lastSeen.seenPhase) :
    SlotInv bare pending posted (slot.at (.enter slot.mailbox)) := by
  have hunseen : ¬ slot.worker.HasSeen slot.mailbox := fun hseen => hnew hseen.2
  have hlive := hinv.mailbox.resolve_right hunseen
  constructor
  · intro mailbox hsame
    obtain rfl : slot.mailbox = mailbox := by
      simpa [Slot.at, WorkerPc.carried] using hsame
    exact hlive
  · exact .inl hlive
  · intro job hposted hdone hgeneration
    exact absurd (hinv.stamped job hposted hdone hgeneration) hunseen
  · intro mailbox hpc
    simp [Slot.at] at hpc

/-- A share begins while the dispatch waits for the slot. -/
theorem startShare (hinv : SlotInv bare pending posted slot)
    (hcarried : slot.worker.pc.carried = some mailbox) {job : Job}
    (hpending : pending = some job)
    (hrank : job.generation ≤ slot.claimedAt ∨ job.skipColdCollapse = true ∨
      bare job) :
    SlotInv bare pending posted (slot.at (.share mailbox)) := by
  have hload : ∀ mailbox, ¬ slot.worker.HasSeen mailbox := by
    intro mailbox hseen
    simp [hseen.1, WorkerPc.carried] at hcarried
  constructor
  · intro other hsame
    obtain rfl : mailbox = other := by
      simpa [Slot.at, WorkerPc.carried] using hsame
    exact hinv.carried mailbox hcarried
  · exact .inl (hinv.mailbox.resolve_right (hload _))
  · intro job hposted hdone hgeneration
    exact absurd (hinv.stamped job hposted hdone hgeneration) (hload _)
  · exact fun _ _ => ⟨job, hpending, hrank⟩

/-- A rank is claimed. -/
theorem claim (hinv : SlotInv bare pending posted slot) {generation : ℕ}
    (hle : slot.claimedAt ≤ generation) :
    SlotInv bare pending posted { slot with claimedAt := generation } where
  carried mailbox hsame := (hinv.carried mailbox hsame).claim hle
  mailbox := hinv.mailbox.imp_left fun hlive => hlive.claim hle
  stamped := hinv.stamped
  share mailbox hpc := by
    obtain ⟨job, hpending, hrank⟩ := hinv.share mailbox hpc
    exact ⟨job, hpending, hrank.imp_left (·.trans hle)⟩

/-- A worker stamps the word it carries and has seen it then. -/
theorem stamp {word : Mailbox} {worker : Worker} (hload : worker.pc = .load)
    (hseen : word.seenPhase = worker.lastSeen.seenPhase) :
    SlotInv bare pending posted
      { slot with mailbox := word, worker := worker } where
  carried mailbox hsame := by simp [hload, WorkerPc.carried] at hsame
  mailbox := .inr ⟨hload, hseen⟩
  stamped _ _ _ _ := ⟨hload, hseen⟩
  share mailbox hpc := by simp [hload] at hpc

/-- A worker that has lost the stamp acknowledges the word that is there. -/
theorem acknowledge (hinv : SlotInv bare pending posted slot)
    (hpc : slot.worker.pc = .acknowledge mailbox) :
    SlotInv bare pending posted
      { slot with
        mailbox := slot.mailbox.withAck
        worker :=
          { slot.worker with pc := .load, lastSeen := mailbox.doneAcked } } := by
  have hunseen : ¬ slot.worker.HasSeen slot.mailbox := by
    intro hseen
    simp [hseen.1] at hpc
  constructor
  · intro mailbox hsame
    cases hsame
  · exact .inl (hinv.mailbox.resolve_right hunseen)
  · intro job hposted hdone hgeneration
    exact absurd (hinv.stamped job hposted hdone hgeneration) hunseen
  · intro mailbox hshare
    cases hshare

/-- The word of a dispatch is put into the slot. -/
theorem publish (hinv : SlotInv bare pending none slot) (job : Job) :
    SlotInv bare pending (some job)
      { slot with mailbox := job.publishedMb } := by
  have hopen : ∀ {mailbox}, Live none slot.claimedAt mailbox →
      Live (some job) slot.claimedAt mailbox := by
    rintro mailbox (⟨_, ⟨⟩, _⟩ | hlive)
    exact .inr hlive
  constructor
  · exact fun mailbox hsame => hopen (hinv.carried mailbox hsame)
  · exact .inl (.inl ⟨job, rfl, rfl, rfl⟩)
  · intro _ _ hdone
    simp [Dispatch.publishedMb, Dispatch.publishedWith] at hdone
  · exact hinv.share

/-- The producer finds the word of its dispatch stamped: the worker has left it
behind. -/
theorem pass {job : Job} (hinv : SlotInv bare (some job) (some job) slot)
    (hdone : slot.mailbox.withoutAck = job.doneSentinelMb) :
    SlotInv bare none none slot := by
  obtain ⟨hstamp, hgeneration⟩ := MailboxWord.of_withoutAck hdone
  have hseen := hinv.stamped job rfl hstamp hgeneration
  constructor
  · intro mailbox hsame
    simp [hseen.1, WorkerPc.carried] at hsame
  · exact .inr hseen
  · intro _ hnone
    simp at hnone
  · intro mailbox hpc
    simp [hseen.1] at hpc

/-- The producer claims the rank: the worker is not in a share. -/
theorem cover {job : Job} (hinv : SlotInv bare (some job) (some job) slot)
    (hskip : job.skipColdCollapse = false) (hbare : ¬ bare job)
    (hclaim : slot.claimedAt < job.generation) :
    SlotInv bare none none { slot with claimedAt := job.generation } := by
  have hclosed : ∀ {mailbox}, Live (some job) slot.claimedAt mailbox →
      Live none job.generation mailbox := fun hlive =>
    (hlive.claim hclaim.le).close le_rfl hskip
  constructor
  · exact fun mailbox hsame => hclosed (hinv.carried mailbox hsame)
  · exact hinv.mailbox.imp_left hclosed
  · intro _ hnone
    simp at hnone
  · intro mailbox hpc
    obtain ⟨_, ⟨rfl⟩, hrank | hrank | hrank⟩ := hinv.share mailbox hpc
    · exact absurd hrank hclaim.not_ge
    · simp [hskip] at hrank
    · exact absurd hrank hbare

/-- The producer stamps the word of a slot that it has covered. -/
theorem coverStamp (hinv : SlotInv bare none none slot) {word : Mailbox}
    (hgeneration : word.generation = slot.mailbox.generation)
    (hskip : word.skipClaim = slot.mailbox.skipClaim)
    (hphase : word.seenPhase = slot.mailbox.seenPhase) :
    SlotInv bare none none { slot with mailbox := word } where
  carried := hinv.carried
  mailbox := by
    refine hinv.mailbox.imp ?_ fun hseen => ⟨hseen.1, hphase.trans hseen.2⟩
    rintro (⟨_, ⟨⟩, _⟩ | hlive)
    exact .inr (by simpa [hgeneration, hskip] using hlive)
  stamped _ hnone := by simp at hnone
  share := hinv.share

/-- A dispatch begins. -/
theorem begin (hinv : SlotInv bare none posted slot) :
    SlotInv bare pending posted slot where
  carried := hinv.carried
  mailbox := hinv.mailbox
  stamped := hinv.stamped
  share mailbox hpc := by
    obtain ⟨_, ⟨⟩, _⟩ := hinv.share mailbox hpc

theorem congr (hinv : SlotInv bare pending posted slot) {other : Slot}
    {bare' : Job → Prop} (halike : slot.Alike other)
    (hbare : ∀ job, pending = some job → bare job → bare' job) :
    SlotInv bare' pending posted other := by
  constructor
  · rw [halike.claimedAt, halike.worker]
    exact hinv.carried
  · rw [halike.claimedAt, halike.mailbox, halike.worker]
    exact hinv.mailbox
  · rw [halike.mailbox, halike.worker]
    exact hinv.stamped
  · intro mailbox hpc
    obtain ⟨job, hpending, hrank⟩ := hinv.share mailbox (halike.worker ▸ hpc)
    rw [halike.claimedAt]
    exact ⟨job, hpending, hrank.imp_right
      (Or.imp_right (hbare job hpending))⟩

end SlotInv

end Slots

/-! ## Producers -/

/-- The pool whose gate a producer holds. -/
def ProducerPc.holds : ProducerPc → Option ℕ
  | .reserve ticket | .roots ticket _ | .begin ticket => some ticket.pool
  | .drain job _ | .publishDesc job _ | .publish job _ | .record job
  | .enterSlot0 job | .slot0 job _ | .join job _ | .cover job _ _
  | .coverStamp job _ | .coverMark job _ => some job.pool
  | .release pool => some pool
  | _ => none

/-- The dispatch that has put its word into a slot and waits for it. -/
def ProducerPc.posted (slot : ℕ) : ProducerPc → Option Job
  | .drain _ _ => none
  | .publishDesc job next | .publish job next =>
      if slot < next then some job else none
  | pc => pc.pending slot

/-- The slot of the open `TlsContextScope`. -/
def ProducerPc.scope : ProducerPc → Option (ℕ × ℕ)
  | .slot0 job _ => some (job.pool, 0)
  | .cover job slot _ => some (job.pool, slot)
  | _ => none

def ProducerPc.saved : ProducerPc → ThreadContext
  | .slot0 _ saved | .cover _ _ saved => saved
  | _ => {}

/-- The context of a producer. -/
def scopeContext : Option (ℕ × ℕ) → ThreadContext
  | some (pool, slot) => ⟨slot, true, some pool⟩
  | none => {}

def DescId.thread : DescId → ℕ
  | .shared thread | .onStack thread => thread

/-- A thread's descriptor for a dispatch of a pool. -/
def State.Describes (state : State) (thread pool : ℕ) (desc : DescId) : Prop :=
  (desc = .shared thread ∧ (state.descs desc).workerStateBase = some pool) ∨
  (desc = .onStack thread ∧ (state.descs desc).workerStateBase = none ∧
    (state.descs desc).drains = pool)

/-- What a producer has written into its descriptor. -/
def State.Filled (state : State) (thread : ℕ) : ProducerPc → Prop
  | .shape call _ =>
      (state.descs (.shared thread)).workerStateBase = some call.pool
  | .lease ticket =>
      if ticket.nTasks = 0 then
        state.Describes thread ticket.pool ticket.desc
      else ticket.desc = .onStack thread
  | .reserve ticket | .roots ticket _ => ticket.desc = .onStack thread
  | .begin ticket => state.Describes thread ticket.pool ticket.desc
  | .drain job _ | .publishDesc job _ | .publish job _ | .record job
  | .enterSlot0 job | .slot0 job _ | .join job _ | .cover job _ _
  | .coverStamp job _ | .coverMark job _ =>
      state.Describes thread job.pool job.desc
  | _ => True

def State.posted (state : State) (pool slot : ℕ) : Option Job :=
  (state.gate pool).bind fun thread =>
    (state.producers thread).posted slot

/-- A dispatch has no worker array. -/
def State.Bare (state : State) (job : Job) : Prop :=
  (state.descs job.desc).workerStateBase = none

/-! ## The invariant -/

/-- Contexts and frames are those of the open scopes. -/
structure Scoped (shapes : ℕ → PoolShape) (state : State) : Prop where
  producer : ∀ thread, state.contexts (.producer thread) =
    scopeContext (state.producers thread).scope
  worker : ∀ pool slot,
    state.contexts (.worker pool slot) = ⟨slot, true, some pool⟩
  saved : ∀ thread, (state.producers thread).saved = {}
  producerOpen : ∀ thread, state.frames (.producer thread) ≠ [] →
    (state.producers thread).scope ≠ none
  workerOpen : ∀ pool slot, state.frames (.worker pool slot) ≠ [] →
    HasWorker shapes pool slot ∧
      ∃ mailbox, (state.slots (pool, slot)).worker.pc = .share mailbox
  framed : ∀ thread, ∀ frame ∈ state.frames thread,
    state.contexts thread = ⟨frame.slot, true, some frame.pool⟩

structure Inv (shapes : ℕ → PoolShape) (state : State) : Prop where
  gate : ∀ pool thread, state.gate pool = some thread ↔
    (state.producers thread).holds = some pool
  filled : ∀ thread, state.Filled thread (state.producers thread)
  scopes : Scoped shapes state
  slots : ∀ pool slot, HasWorker shapes pool slot →
    SlotInv state.Bare (state.pending pool slot) (state.posted pool slot)
      (state.slots (pool, slot))

theorem inv_start (shapes : ℕ → PoolShape) : Inv shapes start where
  gate pool thread := by simp [start, ProducerPc.holds]
  filled thread := trivial
  scopes :=
    { producer := fun _ => rfl
      worker := fun _ _ => rfl
      saved := fun _ => rfl
      producerOpen := fun _ hopen => absurd rfl hopen
      workerOpen := fun _ _ hopen => absurd rfl hopen
      framed := by simp [start] }
  slots pool slot _ :=
    { carried := by simp [start, Slot.fresh, Worker.fresh, WorkerPc.carried]
      mailbox := .inr ⟨rfl, rfl⟩
      stamped := by simp [State.posted, start]
      share := by simp [start, Slot.fresh, Worker.fresh] }

section Producers

variable {shapes : ℕ → PoolShape} {state : State} {thread : ℕ}

theorem holds_of_pending {pc : ProducerPc} {slot : ℕ} {job : Job}
    (hpending : pc.pending slot = some job) : pc.holds = some job.pool := by
  cases pc <;> simp_all [ProducerPc.pending, ProducerPc.holds]

theorem describes_of_pending {pc : ProducerPc} {slot : ℕ} {job : Job}
    (hpending : pc.pending slot = some job) (hfilled : state.Filled thread pc) :
    state.Describes thread job.pool job.desc := by
  cases pc <;> simp_all [ProducerPc.pending, State.Filled]

end Producers

end Citor.DequeOwners
