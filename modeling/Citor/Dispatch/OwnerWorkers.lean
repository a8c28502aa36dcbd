import Citor.Dispatch.OwnerSteps

/-!
# What workers and nested calls keep

A worker changes its own slot; the claim word it takes on another pool belongs
to a share that the condition on shares rules out.  A nested call pushes a frame
for the deque that the thread's context names.
-/

namespace Citor.DequeOwners

open Interleaving
open WorkerSlots (Mailbox Dispatch tryClaimRank)
open Reentrancy (ThreadId ThreadContext PoolShape)

variable {shapes : ℕ → PoolShape} {state after : State}
variable {pool rank : ℕ}

/-! ## The frame of a worker's step -/

section Workers

/-- A worker's step that begins no share. -/
theorem Scoped.between (hscopes : Scoped shapes state) {contents : Slot}
    (hframes : state.frames (.worker pool rank) = []) :
    Scoped shapes (state.setSlot pool rank contents) where
  producer := hscopes.producer
  worker := hscopes.worker
  saved := hscopes.saved
  producerOpen := hscopes.producerOpen
  workerOpen other slot hopen := by
    have hne : (other, slot) ≠ (pool, rank) := by
      rintro ⟨⟩
      exact hopen hframes
    simpa [setSlot_of_ne hne] using hscopes.workerOpen other slot hopen
  framed := hscopes.framed

/-- A worker begins a share. -/
theorem Scoped.share (hscopes : Scoped shapes state)
    (hworker : HasWorker shapes pool rank) {frame : Frame} {contents : Slot}
    {mailbox : Mailbox} (hshare : contents.worker.pc = .share mailbox)
    (hpool : frame.pool = pool) (hslot : frame.slot = rank) :
    Scoped shapes ((state.setSlot pool rank contents).setFrames
      (.worker pool rank) [frame]) where
  producer := hscopes.producer
  worker := hscopes.worker
  saved := hscopes.saved
  producerOpen other hopen := hscopes.producerOpen other (by
    simpa [State.setFrames] using hopen)
  workerOpen other slot hopen := by
    by_cases hsame : (other, slot) = (pool, rank)
    · obtain ⟨rfl, rfl⟩ := Prod.mk.inj hsame
      exact ⟨hworker, mailbox, by
        simpa [State.setFrames, State.setSlot] using hshare⟩
    · have hne : ThreadId.worker other slot ≠ .worker pool rank := by
        simpa using hsame
      simpa [State.setFrames, setSlot_of_ne hsame] using
        hscopes.workerOpen other slot (by
          simpa [State.setFrames, hne] using hopen)
  framed thread inner hmem := by
    by_cases hsame : thread = .worker pool rank
    · subst hsame
      obtain rfl : inner = frame := by simpa [State.setFrames] using hmem
      simp [State.setFrames, hscopes.worker, hpool, hslot]
    · exact hscopes.framed thread inner (by
        simpa [State.setFrames, hsame] using hmem)

variable (hinv : Inv shapes state)

include hinv

/-- A worker's step. -/
theorem Inv.worker {contents : Slot}
    (hproducers : after.producers = state.producers)
    (hgate : after.gate = state.gate) (hdescs : after.descs = state.descs)
    (hslots : after.slots = (state.setSlot pool rank contents).slots)
    (hscopes : Scoped shapes after)
    (hslot : HasWorker shapes pool rank →
      SlotInv state.Bare (state.pending pool rank) (state.posted pool rank)
        contents) : Inv shapes after where
  gate := by
    rw [hproducers, hgate]
    exact hinv.gate
  filled other := by
    rw [hproducers]
    exact (hinv.filled other).congr fun _ _ => by rw [hdescs]
  scopes := hscopes
  slots other slot hworker := by
    rw [State.pending, State.posted, hgate, hproducers, hslots]
    have hbare : ∀ job, state.Bare job → after.Bare job := by
      intro job hbare
      rwa [State.Bare, hdescs]
    by_cases hsame : (other, slot) = (pool, rank)
    · obtain ⟨rfl, rfl⟩ := Prod.mk.inj hsame
      exact (hslot hworker).congr
        (by simpa [State.setSlot] using Slot.Alike.refl _)
        fun job _ => hbare job
    · rw [setSlot_of_ne hsame]
      exact (hinv.slots other slot hworker).congr (.refl _)
        fun job _ => hbare job

/-- A worker outside of its share has no frames. -/
theorem Inv.no_frames
    (hpc : ∀ mailbox, (state.slots (pool, rank)).worker.pc ≠ .share mailbox) :
    state.frames (.worker pool rank) = [] := by
  by_contra hopen
  obtain ⟨-, mailbox, hshare⟩ := hinv.scopes.workerOpen pool rank hopen
  exact hpc mailbox hshare

theorem Inv.quiet {contents : Slot}
    (hframes : state.frames (.worker pool rank) = [])
    (hslot : HasWorker shapes pool rank →
      SlotInv state.Bare (state.pending pool rank) (state.posted pool rank)
        contents) : Inv shapes (state.setSlot pool rank contents) :=
  hinv.worker rfl rfl rfl rfl (hinv.scopes.between hframes) hslot

omit hinv in
theorem pending_of_posted {pool slot : ℕ} {job : Job}
    (hposted : state.posted pool slot = some job) :
    state.pending pool slot = some job := by
  obtain ⟨thread, hgate, hpc⟩ := Option.bind_eq_some_iff.1 hposted
  rw [State.pending, hgate, Option.bind_some]
  revert hpc
  cases state.producers thread <;>
    simp +contextual [ProducerPc.posted, ProducerPc.pending]

/-- The dispatch that a producer runs on a pool is described for that pool. -/
theorem Inv.describes {pool slot : ℕ} {job : Job}
    (hpending : state.pending pool slot = some job) :
    job.pool = pool ∧ ∃ thread, state.Describes thread pool job.desc := by
  obtain ⟨thread, hgate, hpc⟩ := Option.bind_eq_some_iff.1 hpending
  obtain rfl : job.pool = pool := by
    have hholds := (hinv.gate pool thread).1 hgate
    simpa [holds_of_pending hpc] using hholds
  exact ⟨rfl, thread, describes_of_pending hpc (hinv.filled thread)⟩

omit hinv in
theorem awaited_iff {slot : ℕ} :
    state.awaited pool slot = true ↔
      ∃ job, state.pending pool slot = some job ∧
        (state.slots (pool, slot)).worker.cachedDesc = some job.desc ∧
        state.Bare job := by
  cases hpending : state.pending pool slot <;>
    simp [State.awaited, State.Bare, hpending]

end Workers

/-! ## The steps of a worker -/

section WorkerSteps

variable (hinv : Inv shapes state) (hworker : HasWorker shapes pool rank)

include hinv hworker

/-- A worker between shares moves on. -/
theorem Inv.move {worker : Worker} {mailbox : Mailbox}
    (hbefore : (state.slots (pool, rank)).worker.pc.carried = some mailbox)
    (hframes : state.frames (.worker pool rank) = [])
    (hcarried : worker.pc.carried = some mailbox)
    (hshare : ∀ mailbox, worker.pc ≠ .share mailbox) :
    Inv shapes (state.setSlot pool rank
      { state.slots (pool, rank) with worker := worker }) :=
  hinv.quiet hframes fun _ => (hinv.slots pool rank hworker).move
    (hcarried.trans hbefore.symm) (by simp [hbefore]) hshare

theorem Inv.startShare {mailbox : Mailbox} {frame : Frame} {job : Job}
    (hbefore : (state.slots (pool, rank)).worker.pc.carried = some mailbox)
    (hpending : state.pending pool rank = some job)
    (hrank : job.generation ≤ (state.slots (pool, rank)).claimedAt ∨
      job.skipColdCollapse = true ∨ state.Bare job)
    (hpool : frame.pool = pool) (hslot : frame.slot = rank) :
    Inv shapes (state.startShare pool rank mailbox frame) :=
  hinv.worker rfl rfl rfl rfl
    (hinv.scopes.share hworker rfl hpool hslot)
    fun _ => (hinv.slots pool rank hworker).startShare hbefore hpending hrank

omit hinv hworker in
theorem carried_enterEntry (worker : Worker) (mailbox : Mailbox) :
    (worker.enterEntry mailbox).carried = some mailbox ∧
      ∀ other, worker.enterEntry mailbox ≠ .share other := by
  unfold Worker.enterEntry
  split
  · exact ⟨rfl, by simp⟩
  · split_ifs <;> exact ⟨rfl, by simp⟩

theorem Inv.step_load
    (hpc : (state.slots (pool, rank)).worker.pc = .load)
    (hstep : state.workerStep pool rank = some after) : Inv shapes after := by
  simp only [State.workerStep, hpc] at hstep
  split_ifs at hstep with hnew
  simp only [Option.some.injEq] at hstep
  subst hstep
  exact hinv.quiet (hinv.no_frames (by simp [hpc])) fun _ =>
    (hinv.slots pool rank hworker).enter hnew

theorem Inv.step_enter {mailbox : Mailbox}
    (hpc : (state.slots (pool, rank)).worker.pc = .enter mailbox)
    (hstep : state.workerStep pool rank = some after) : Inv shapes after := by
  have hframes : state.frames (.worker pool rank) = [] :=
    hinv.no_frames (by simp [hpc])
  have hbefore : (state.slots (pool, rank)).worker.pc.carried =
      some mailbox := by rw [hpc]; rfl
  simp only [State.workerStep, hpc] at hstep
  split at hstep
  · simp only [Option.some.injEq] at hstep
    subst hstep
    exact hinv.move hworker hbefore hframes rfl (by simp)
  · split_ifs at hstep <;> simp only [Option.some.injEq] at hstep <;>
      subst hstep
    · exact hinv.move hworker hbefore hframes rfl (by simp)
    · obtain ⟨hcarried, hshare⟩ :=
        carried_enterEntry (state.slots (pool, rank)).worker mailbox
      exact hinv.move hworker hbefore hframes hcarried hshare

theorem Inv.step_readEntry {mailbox : Mailbox} {desc : DescId}
    (hpc : (state.slots (pool, rank)).worker.pc = .readEntry mailbox desc)
    (hstep : state.workerStep pool rank = some after) : Inv shapes after := by
  simp only [State.workerStep, hpc, Option.some.injEq] at hstep
  subst hstep
  exact hinv.move hworker (by rw [hpc]; rfl) (hinv.no_frames (by simp [hpc]))
    rfl (by simp)

theorem Inv.step_readBase {mailbox : Mailbox} {desc : DescId}
    {entry : Option ℕ}
    (hpc : (state.slots (pool, rank)).worker.pc = .readBase mailbox desc entry)
    (hstep : state.workerStep pool rank = some after) : Inv shapes after := by
  simp only [State.workerStep, hpc, Option.some.injEq] at hstep
  subst hstep
  obtain ⟨hcarried, hshare⟩ := carried_enterEntry
    { (state.slots (pool, rank)).worker with
      cachedDesc := some desc
      cachedWorkerEntry := entry
      cachedColdCollapse := (state.descs desc).workerStateBase.isSome } mailbox
  exact hinv.move hworker (by rw [hpc]; rfl) (hinv.no_frames (by simp [hpc]))
    hcarried hshare

theorem Inv.step_copy {mailbox : Mailbox}
    (hpc : (state.slots (pool, rank)).worker.pc = .copy mailbox)
    (hstep : state.workerStep pool rank = some after) : Inv shapes after := by
  simp only [State.workerStep, hpc] at hstep
  split at hstep
  · simp only [Option.some.injEq] at hstep
    subst hstep
    exact hinv.move hworker (by rw [hpc]; rfl) (hinv.no_frames (by simp [hpc]))
      rfl (by simp)
  · simp at hstep

/-- A share behind the claim of its rank. -/
theorem Inv.step_claim {mailbox : Mailbox}
    (hpc : (state.slots (pool, rank)).worker.pc = .claim mailbox)
    (hmay : state.mayShare pool rank = true)
    (hstep : state.workerStep pool rank = some after) : Inv shapes after := by
  have hslot := hinv.slots pool rank hworker
  have hframes : state.frames (.worker pool rank) = [] :=
    hinv.no_frames (by simp [hpc])
  have hbefore : (state.slots (pool, rank)).worker.pc.carried =
      some mailbox := by rw [hpc]; rfl
  simp only [State.mayShare, hpc, Bool.or_eq_true] at hmay
  simp only [State.workerStep, hpc] at hstep
  cases hclaims : (state.slots (pool, rank)).worker.claims mailbox with
  | none =>
      simp only [hclaims, Option.some.injEq] at hstep
      subst hstep
      by_cases hskip : mailbox.skipClaim = true
      · -- nobody covers the dispatch
        obtain ⟨job, hposted, -, hflag⟩ :=
          (hslot.carried mailbox hbefore).of_open (.inr hskip)
        exact hinv.startShare hworker hbefore (pending_of_posted hposted)
          (.inr (.inl (hflag ▸ hskip))) rfl rfl
      · have hbase : (state.slots (pool, rank)).worker.workerStateBase =
            none := by
          simpa [Worker.claims, hskip] using hclaims
        simp only [hskip, hbase, Bool.false_eq_true, false_or] at hmay
        obtain ⟨job, hpending, -, hbare⟩ := awaited_iff.1 hmay
        exact hinv.startShare hworker hbefore hpending (.inr (.inr hbare))
          rfl rfl
  | some target =>
      obtain ⟨hskip, hbase⟩ : mailbox.skipClaim = false ∧
          (state.slots (pool, rank)).worker.workerStateBase = some target := by
        simpa [Worker.claims] using hclaims
      simp only [hclaims] at hstep
      split_ifs at hstep with hclaim <;> simp only [Option.some.injEq] at hstep
        <;> subst hstep
      · obtain rfl : target = pool := by
          simp only [hskip, hbase, Bool.false_eq_true, false_or,
            Bool.or_eq_true, decide_eq_true_eq] at hmay
          exact hmay.resolve_right (by simp [hclaim])
        have hlt : (state.slots (target, rank)).claimedAt <
            mailbox.generation := by simpa [tryClaimRank] using hclaim
        obtain ⟨job, hposted, hgeneration, -⟩ :=
          (hslot.carried mailbox hbefore).of_open (.inl hlt)
        have hclaimed := hinv.quiet hframes fun _ => hslot.claim hlt.le
        have hrank : job.generation ≤ ((state.setSlot target rank
            { state.slots (target, rank) with
              claimedAt := mailbox.generation }).slots
                (target, rank)).claimedAt := by
          simp [State.setSlot, hgeneration]
        exact hclaimed.startShare hworker
          (by simpa [State.setSlot] using hbefore)
          (pending_of_posted hposted) (.inl hrank) rfl rfl
      · exact hinv.move hworker hbefore hframes rfl (by simp)

/-- A share of a fork-join call. -/
theorem Inv.step_run {mailbox : Mailbox}
    (hpc : (state.slots (pool, rank)).worker.pc = .run mailbox)
    (hmay : state.mayShare pool rank = true)
    (hstep : state.workerStep pool rank = some after) : Inv shapes after := by
  simp only [State.mayShare, hpc] at hmay
  obtain ⟨job, hpending, hcached, hbare⟩ := awaited_iff.1 hmay
  simp only [State.workerStep, hpc, hcached, Option.map_some,
    Option.some.injEq] at hstep
  subst hstep
  obtain ⟨-, thread, hdescribes⟩ := hinv.describes hpending
  have hdrains : (state.descs job.desc).drains = pool := by
    rcases hdescribes with ⟨-, hbase⟩ | ⟨-, -, hdrains⟩
    · exact absurd (hbare.symm.trans hbase) (by simp)
    · exact hdrains
  exact hinv.startShare hworker (by rw [hpc]; rfl) hpending
    (.inr (.inr hbare)) hdrains rfl

theorem Inv.step_share {mailbox : Mailbox}
    (hpc : (state.slots (pool, rank)).worker.pc = .share mailbox)
    (hstep : state.workerStep pool rank = some after) : Inv shapes after := by
  simp only [State.workerStep, hpc] at hstep
  split_ifs at hstep with hframes
  simp only [Option.some.injEq] at hstep
  subst hstep
  exact hinv.move hworker (by rw [hpc]; rfl) hframes rfl (by simp)

theorem Inv.step_stamp {mailbox : Mailbox} {coldCollapseDispatch : Bool}
    (hpc : (state.slots (pool, rank)).worker.pc =
      .stamp mailbox coldCollapseDispatch)
    (hstep : state.workerStep pool rank = some after) : Inv shapes after := by
  have hframes : state.frames (.worker pool rank) = [] :=
    hinv.no_frames (by simp [hpc])
  have hbefore : (state.slots (pool, rank)).worker.pc.carried =
      some mailbox := by rw [hpc]; rfl
  simp only [State.workerStep, hpc] at hstep
  cases hstamp : mailbox.stampDone (state.slots (pool, rank)).mailbox
      coldCollapseDispatch with
  | some stamped =>
      simp only [hstamp, Option.some.injEq] at hstep
      subst hstep
      exact hinv.quiet hframes fun _ => SlotInv.stamp rfl rfl
  | none =>
      simp only [hstamp, Option.some.injEq] at hstep
      subst hstep
      exact hinv.move hworker hbefore hframes rfl (by simp)

theorem Inv.step_acknowledge {mailbox : Mailbox}
    (hpc : (state.slots (pool, rank)).worker.pc = .acknowledge mailbox)
    (hstep : state.workerStep pool rank = some after) : Inv shapes after := by
  simp only [State.workerStep, hpc, Option.some.injEq] at hstep
  subst hstep
  exact hinv.quiet (hinv.no_frames (by simp [hpc])) fun _ =>
    (hinv.slots pool rank hworker).acknowledge hpc

/-- Every step of a worker. -/
theorem Inv.workerStep (hmay : state.mayShare pool rank = true)
    (hstep : state.workerStep pool rank = some after) : Inv shapes after := by
  cases hpc : (state.slots (pool, rank)).worker.pc with
  | load => exact hinv.step_load hworker hpc hstep
  | enter => exact hinv.step_enter hworker hpc hstep
  | readEntry => exact hinv.step_readEntry hworker hpc hstep
  | readBase => exact hinv.step_readBase hworker hpc hstep
  | copy => exact hinv.step_copy hworker hpc hstep
  | claim => exact hinv.step_claim hworker hpc hmay hstep
  | run => exact hinv.step_run hworker hpc hmay hstep
  | share => exact hinv.step_share hworker hpc hstep
  | stamp => exact hinv.step_stamp hworker hpc hstep
  | acknowledge => exact hinv.step_acknowledge hworker hpc hstep

end WorkerSteps

/-! ## Calls inside a share -/

section Frames

variable {thread : ThreadId}

/-- A call on the nested path is made on the pool of the thread's context. -/
theorem pool_of_nested {shape : PoolShape} {context : ThreadContext}
    {call : Reentrancy.Call}
    (hroute : Reentrancy.route shape pool context call = .nested) :
    context.pool = some pool ∧ context.insidePoolWorker = true := by
  have houter : Reentrancy.runForkJoinOuter shape pool context ≠ .nested := by
    unfold Reentrancy.runForkJoinOuter
    split_ifs <;> simp
  have hall : ∀ n, Reentrancy.forkJoinAll shape pool context n = .nested →
      context.pool = some pool ∧ context.insidePoolWorker = true := by
    intro n hnested
    unfold Reentrancy.forkJoinAll at hnested
    split_ifs at hnested with _ _ hhere
    · simpa [Reentrancy.onThisPool] using hhere
    · exact absurd hnested houter
  cases call with
  | parallelFor first last hints =>
      simp only [Reentrancy.route, Reentrancy.parallelFor] at hroute
      split_ifs at hroute
      exact hall _ hroute
  | forkJoin nTasks =>
      simp only [Reentrancy.route, Reentrancy.forkJoinImpl] at hroute
      split_ifs at hroute with _ _ hhere
      · simpa [Reentrancy.onThisPool] using hhere
      · exact absurd hroute houter
  | forkJoinAll nTasks => exact hall nTasks hroute
  | parallelForRuntime =>
      simp only [Reentrancy.route, Reentrancy.parallelForRuntime] at hroute
      split_ifs at hroute
  | parallelReduce =>
      simp only [Reentrancy.route, Reentrancy.parallelReduce] at hroute
      split_ifs at hroute
  | parallelReduceRuntime =>
      simp only [Reentrancy.route, Reentrancy.parallelReduceRuntime] at hroute
      split_ifs at hroute
  | runPlex | runPlexRuntime =>
      simp only [Reentrancy.route, Reentrancy.runPlex] at hroute
      split_ifs at hroute
  | parallelChain | parallelChainRuntime =>
      simp only [Reentrancy.route, Reentrancy.parallelChainImpl] at hroute
      split_ifs at hroute
  | parallelScan =>
      simp only [Reentrancy.route, Reentrancy.parallelScan] at hroute
      split_ifs at hroute
  | inclusiveScan =>
      simp only [Reentrancy.route, Reentrancy.inclusiveScan] at hroute
      split_ifs at hroute

/-- Frames come and go on the deque of the thread's context. -/
theorem Inv.setFrames (hinv : Inv shapes state) {frames : List Frame}
    (hopen : state.frames thread ≠ [])
    (hframed : ∀ frame ∈ frames, state.contexts thread =
      ⟨frame.slot, true, some frame.pool⟩) :
    Inv shapes (state.setFrames thread frames) where
  gate := hinv.gate
  filled other := (hinv.filled other).congr fun _ _ => rfl
  scopes :=
    { producer := hinv.scopes.producer
      worker := hinv.scopes.worker
      saved := hinv.scopes.saved
      producerOpen := fun other hother => by
        refine hinv.scopes.producerOpen other ?_
        by_cases hsame : ThreadId.producer other = thread
        · exact hsame ▸ hopen
        · simpa [State.setFrames, hsame] using hother
      workerOpen := fun pool slot hother => by
        refine hinv.scopes.workerOpen pool slot ?_
        by_cases hsame : ThreadId.worker pool slot = thread
        · exact hsame ▸ hopen
        · simpa [State.setFrames, hsame] using hother
      framed := fun other frame hmem => by
        by_cases hsame : other = thread
        · subst hsame
          exact hframed frame (by simpa [State.setFrames] using hmem)
        · exact hinv.scopes.framed other frame (by
            simpa [State.setFrames, hsame] using hmem) }
  slots := hinv.slots

variable (hinv : Inv shapes state)

include hinv

theorem Inv.nest {call : Reentrancy.Call}
    (hstep : state.nest shapes thread pool call = some after) :
    Inv shapes after := by
  unfold State.nest at hstep
  split at hstep
  · rename_i frame rest hframes
    dsimp only at hstep
    split_ifs at hstep with hguard
    simp only [Option.some.injEq] at hstep
    subst hstep
    refine hinv.setFrames (by simp [hframes]) ?_
    have hframed := hinv.scopes.framed thread
    rw [hframes] at hframed
    obtain ⟨hpool, hinside⟩ := pool_of_nested hguard.2
    intro inner hmem
    rcases List.mem_cons.1 hmem with rfl | hmem
    · rw [← hpool, ← hinside]
    · exact hframed inner hmem
  · simp at hstep

theorem Inv.advance (hstep : state.advance thread = some after) :
    Inv shapes after := by
  unfold State.advance at hstep
  split at hstep
  · rename_i frame rest hframes
    obtain ⟨pc, -, rfl⟩ := Option.map_eq_some_iff.1 hstep
    refine hinv.setFrames (by simp [hframes]) ?_
    have hframed := hinv.scopes.framed thread
    rw [hframes] at hframed
    intro inner hmem
    rcases List.mem_cons.1 hmem with rfl | hmem
    · exact hframed frame (by simp)
    · exact hframed inner (by simp [hmem])
  · simp at hstep

theorem Inv.take (hstep : state.take thread = some after) :
    Inv shapes after := by
  unfold State.take at hstep
  split at hstep
  · rename_i pool slot rest hframes
    simp only [Option.some.injEq] at hstep
    subst hstep
    refine hinv.setFrames (by simp [hframes]) ?_
    have hframed := hinv.scopes.framed thread
    rw [hframes] at hframed
    intro inner hmem
    rcases List.mem_cons.1 hmem with rfl | hmem
    · exact hframed ⟨pool, slot, .drain⟩ (by simp)
    · exact hframed inner (by simp [hmem])
  · simp at hstep

theorem Inv.leave (hstep : state.leave thread = some after) :
    Inv shapes after := by
  have hrest : ∀ frame rest, state.frames thread = frame :: rest →
      Inv shapes (state.setFrames thread rest) := by
    intro frame rest hframes
    refine hinv.setFrames (by simp [hframes]) fun inner hmem => ?_
    exact hinv.scopes.framed thread inner (by simp [hframes, hmem])
  unfold State.leave at hstep
  split at hstep
  · rename_i hframes
    simp only [Option.some.injEq] at hstep
    exact hstep ▸ hrest _ _ hframes
  · rename_i hframes
    simp only [Option.some.injEq] at hstep
    exact hstep ▸ hrest _ _ hframes
  · simp at hstep

end Frames

/-! ## Every step -/

theorem Inv.step (hinv : Inv shapes state) {action : Action}
    (hguarded : OwnersGuarded state action)
    (hstep : DequeOwners.step shapes state action = some after) :
    Inv shapes after := by
  cases action with
  | call thread call =>
      simp only [DequeOwners.step] at hstep
      split_ifs at hstep with hguard
      simp only [Option.some.injEq] at hstep
      exact hstep ▸ hinv.step_call hguard.1 hguard.2.2.2
  | producer thread => exact hinv.producerStep hguarded.1 hstep
  | cover thread => exact hinv.coverStep hstep
  | worker pool rank =>
      simp only [DequeOwners.step] at hstep
      split_ifs at hstep with hworker
      exact hinv.workerStep hworker hguarded.2 hstep
  | nest thread pool call => exact hinv.nest hstep
  | advance thread => exact hinv.advance hstep
  | take thread => exact hinv.take hstep
  | leave thread => exact hinv.leave hstep

/-- Every guarded run keeps the invariant. -/
theorem inv_of_run {trace : List Empty}
    (hrun : Run (machine shapes) OwnersGuarded start trace state) :
    Inv shapes state := by
  refine hrun.invariant (fun _ state => Inv shapes state) (inv_start shapes) ?_
  intro trace before action after event hinv hguarded hstep
  obtain ⟨_, hnext, hpair⟩ := Option.map_eq_some_iff.1 hstep
  obtain ⟨rfl, -⟩ := Prod.mk.inj hpair
  exact hinv.step hguarded hnext

end Citor.DequeOwners
