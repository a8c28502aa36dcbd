import Citor.Dispatch.OwnerInvariant

/-!
# Every step keeps the deques apart

A producer writes only its own descriptors and, behind the gate, the slots of
its own pool.  A worker changes its own slot, and a claim word of its pool.
Calls inside a share stay on the slot of the thread's context.
-/

namespace Citor.DequeOwners

open Interleaving
open WorkerSlots (Mailbox Dispatch tryClaimRank)
open Reentrancy (ThreadId ThreadContext PoolShape)

variable {shapes : ℕ → PoolShape} {state after : State} {thread : ℕ}
variable {before pc : ProducerPc}

/-! ## The fields of an updated state -/

section Fields

variable {pool slot : ℕ} {contents : Slot} {frame : Frame}

@[simp]
theorem at_slots : (state.at thread pc).slots = state.slots := rfl

@[simp]
theorem at_contexts : (state.at thread pc).contexts = state.contexts := rfl

@[simp]
theorem at_frames : (state.at thread pc).frames = state.frames := rfl

@[simp]
theorem at_producers : (state.at thread pc).producers =
    Function.update state.producers thread pc := rfl

@[simp]
theorem setSlot_producers :
    (state.setSlot pool slot contents).producers = state.producers := rfl

@[simp]
theorem setSlot_contexts :
    (state.setSlot pool slot contents).contexts = state.contexts := rfl

@[simp]
theorem setSlot_frames :
    (state.setSlot pool slot contents).frames = state.frames := rfl

@[simp]
theorem enterScope_slots :
    (state.enterScope thread pool slot frame).slots = state.slots := rfl

@[simp]
theorem enterScope_producers :
    (state.enterScope thread pool slot frame).producers =
      state.producers := rfl

@[simp]
theorem enterScope_contexts :
    (state.enterScope thread pool slot frame).contexts =
      Function.update state.contexts (.producer thread)
        ⟨slot, true, some pool⟩ := rfl

@[simp]
theorem enterScope_frames :
    (state.enterScope thread pool slot frame).frames =
      Function.update state.frames (.producer thread) [frame] := rfl

end Fields

/-! ## What a producer's step leaves alone -/

section Frame

theorem State.Describes.congr {pool : ℕ} {desc : DescId}
    (hdescs : ∀ desc, desc.thread = thread →
      after.descs desc = state.descs desc)
    (hdescribes : state.Describes thread pool desc) :
    after.Describes thread pool desc := by
  rcases hdescribes with ⟨rfl, hbase⟩ | ⟨rfl, hbase, hdrains⟩
  · exact .inl ⟨rfl, (congrArg _ (hdescs _ rfl)).trans hbase⟩
  · exact .inr ⟨rfl, (congrArg _ (hdescs _ rfl)).trans hbase,
      (congrArg _ (hdescs _ rfl)).trans hdrains⟩

theorem State.Describes.thread_eq {pool : ℕ} {desc : DescId}
    (hdescribes : state.Describes thread pool desc) : desc.thread = thread := by
  rcases hdescribes with ⟨rfl, -⟩ | ⟨rfl, -⟩ <;> rfl

theorem State.Filled.congr
    (hdescs : ∀ desc, desc.thread = thread →
      after.descs desc = state.descs desc)
    (hfilled : state.Filled thread pc) : after.Filled thread pc := by
  cases pc with
  | shape call keyMatches =>
      exact (congrArg _ (hdescs _ rfl)).trans hfilled
  | lease ticket =>
      simp only [State.Filled] at hfilled ⊢
      split_ifs at hfilled ⊢
      · exact hfilled.congr hdescs
      · exact hfilled
  | begin | drain | publishDesc | publish | record | enterSlot0 | slot0 | join
  | cover | coverStamp | coverMark => exact hfilled.congr hdescs
  | _ => exact hfilled

theorem posted_of_pending {slot : ℕ} (hpending : pc.pending slot = none) :
    pc.posted slot = none := by
  cases pc <;> simp_all [ProducerPc.pending, ProducerPc.posted]

theorem saved_of_scope (hscope : pc.scope = none) : pc.saved = {} := by
  cases pc <;> simp_all [ProducerPc.scope, ProducerPc.saved]

/-- A step of a producer outside of all scopes. -/
theorem Scoped.unscoped (hscopes : Scoped shapes state)
    (hproducers : after.producers =
      Function.update state.producers thread pc)
    (hcontexts : after.contexts = state.contexts)
    (hframes : after.frames = state.frames)
    (hworkers : ∀ id, (after.slots id).worker = (state.slots id).worker)
    (hbefore : (state.producers thread).scope = none)
    (hscope : pc.scope = none) : Scoped shapes after := by
  have hsame : ∀ other,
      (after.producers other).scope = (state.producers other).scope := by
    intro other
    rw [hproducers]
    by_cases hother : other = thread
    · simp [hother, hscope, hbefore]
    · simp [hother]
  constructor
  · intro other
    rw [hcontexts, hscopes.producer, hsame]
  · rw [hcontexts]
    exact hscopes.worker
  · intro other
    by_cases hother : other = thread
    · simpa [hproducers, hother] using saved_of_scope hscope
    · simpa [hproducers, hother] using hscopes.saved other
  · intro other hopen
    rw [hsame]
    exact hscopes.producerOpen other (hframes ▸ hopen)
  · intro pool slot hopen
    rw [hworkers]
    exact hscopes.workerOpen pool slot (hframes ▸ hopen)
  · rw [hcontexts, hframes]
    exact hscopes.framed

variable (hinv : Inv shapes state)

include hinv

theorem Inv.pending_eq {pool slot : ℕ}
    (hholds : (state.producers thread).holds = some pool) :
    state.pending pool slot = (state.producers thread).pending slot := by
  simp [State.pending, (hinv.gate pool thread).2 hholds]

theorem Inv.posted_eq {pool slot : ℕ}
    (hholds : (state.producers thread).holds = some pool) :
    state.posted pool slot = (state.producers thread).posted slot := by
  simp [State.posted, (hinv.gate pool thread).2 hholds]

/-- The slots of the pool whose gate a producer holds. -/
theorem Inv.own {pool slot : ℕ}
    (hholds : (state.producers thread).holds = some pool)
    (hworker : HasWorker shapes pool slot) :
    SlotInv state.Bare ((state.producers thread).pending slot)
      ((state.producers thread).posted slot) (state.slots (pool, slot)) := by
  rw [← hinv.pending_eq hholds, ← hinv.posted_eq hholds]
  exact hinv.slots pool slot hworker

/-- A step of a producer that keeps its gate. -/
theorem Inv.producer (hpc : state.producers thread = before)
    (hproducers : after.producers =
      Function.update state.producers thread pc)
    (hgate : after.gate = state.gate)
    (hholds : pc.holds = before.holds)
    (hdescs : ∀ desc, desc.thread ≠ thread →
      after.descs desc = state.descs desc)
    (hfilled : after.Filled thread pc) (hscopes : Scoped shapes after)
    (hother : ∀ pool slot, before.holds ≠ some pool →
      (state.slots (pool, slot)).Alike (after.slots (pool, slot)))
    (hown : ∀ pool slot, before.holds = some pool →
      HasWorker shapes pool slot →
      SlotInv after.Bare (pc.pending slot) (pc.posted slot)
        (after.slots (pool, slot))) : Inv shapes after where
  gate pool other := by
    rw [hgate, hinv.gate, hproducers]
    by_cases hsame : other = thread
    · simp [hsame, hholds, hpc]
    · simp [hsame]
  filled other := by
    rw [hproducers]
    by_cases hsame : other = thread
    · subst hsame
      simpa using hfilled
    · rw [Function.update_of_ne hsame]
      refine (hinv.filled other).congr fun desc howner => hdescs desc ?_
      rw [howner]
      exact hsame
  scopes := hscopes
  slots pool slot hworker := by
    by_cases hmine : before.holds = some pool
    · have hgated : after.gate pool = some thread :=
        hgate ▸ (hinv.gate pool thread).2 (hpc ▸ hmine)
      simpa [State.pending, State.posted, hgated, hproducers] using
        hown pool slot hmine hworker
    · have hgated : after.gate pool ≠ some thread := by
        rw [hgate, Ne, hinv.gate, hpc]
        exact hmine
      have hsame : ∀ part : ProducerPc → Option Job,
          ((after.gate pool).bind fun other => part (after.producers other)) =
            (state.gate pool).bind fun other =>
              part (state.producers other) := by
        intro part
        rw [hgate] at hgated ⊢
        refine Option.bind_congr fun other hholder => ?_
        have hne : other ≠ thread := by
          rintro rfl
          exact hgated hholder
        rw [hproducers, Function.update_of_ne hne]
      have hpending := hsame (ProducerPc.pending slot)
      have hposted := hsame (ProducerPc.posted slot)
      rw [State.pending, State.posted, hpending, hposted]
      refine (hinv.slots pool slot hworker).congr (hother pool slot hmine) ?_
      intro job hjob hbare
      obtain ⟨other, hholder, hpends⟩ := Option.bind_eq_some_iff.1 hjob
      have hne : other ≠ thread := by
        rintro rfl
        exact hgated (hgate ▸ hholder)
      have howner := (describes_of_pending hpends
        (hinv.filled other)).thread_eq
      rw [State.Bare, hdescs _ (howner ▸ hne)]
      exact hbare

/-- A step of a producer with no dispatch in progress. -/
theorem Inv.prepare (hpc : state.producers thread = before)
    (hproducers : after.producers =
      Function.update state.producers thread pc)
    (hgate : after.gate = state.gate)
    (hholds : pc.holds = before.holds)
    (hdescs : ∀ desc, desc.thread ≠ thread →
      after.descs desc = state.descs desc)
    (hfilled : after.Filled thread pc)
    (hcontexts : after.contexts = state.contexts)
    (hframes : after.frames = state.frames)
    (halike : ∀ id, (state.slots id).Alike (after.slots id))
    (hscopes : before.scope = none ∧ pc.scope = none)
    (hidle : ∀ slot, before.pending slot = none ∧
      pc.pending slot = none) : Inv shapes after := by
  subst hpc
  refine hinv.producer rfl hproducers hgate hholds hdescs hfilled
    (hinv.scopes.unscoped hproducers hcontexts hframes
      (fun id => (halike id).worker) hscopes.1 hscopes.2)
    (fun _ _ _ => halike _) ?_
  intro pool slot hmine hworker
  have hslot := hinv.own hmine hworker
  obtain ⟨hbefore, hpending⟩ := hidle slot
  rw [hbefore, posted_of_pending hbefore] at hslot
  rw [hpending, posted_of_pending hpending]
  exact hslot.congr (halike _) (by simp)

/-- A step of a producer in the section that leaves the descriptors alone. -/
theorem Inv.dispatch (hpc : state.producers thread = before)
    (hproducers : after.producers =
      Function.update state.producers thread pc)
    (hgate : after.gate = state.gate)
    (hholds : pc.holds = before.holds)
    (hdescs : after.descs = state.descs) (hfilled : after.Filled thread pc)
    (hcontexts : after.contexts = state.contexts)
    (hframes : after.frames = state.frames)
    (hscopes : before.scope = none ∧ pc.scope = none)
    (hworkers : ∀ id, (after.slots id).worker = (state.slots id).worker)
    (hother : ∀ pool slot, before.holds ≠ some pool →
      (state.slots (pool, slot)).Alike (after.slots (pool, slot)))
    (hown : ∀ pool slot, before.holds = some pool →
      HasWorker shapes pool slot →
      SlotInv state.Bare (pc.pending slot) (pc.posted slot)
        (after.slots (pool, slot))) : Inv shapes after := by
  subst hpc
  refine hinv.producer rfl hproducers hgate hholds (fun _ _ => by rw [hdescs])
    hfilled (hinv.scopes.unscoped hproducers hcontexts hframes hworkers
      hscopes.1 hscopes.2) hother ?_
  intro pool slot hmine hworker
  exact (hown pool slot hmine hworker).congr (.refl _)
    fun job _ hbare => by rwa [State.Bare, hdescs]

omit hinv in
theorem alike_clearStamps (pool : ℕ) (cleared : List ℕ) (id : ℕ × ℕ) :
    (state.slots id).Alike ((state.clearStamps pool cleared).slots id) := by
  simp only [State.clearStamps]
  split_ifs
  · exact ⟨rfl, rfl, rfl⟩
  · exact .refl _

end Frame

/-! ## Up to the gate -/

section Calls

variable (hinv : Inv shapes state)

include hinv

theorem Inv.step_call {call : Call} (hpc : state.producers thread = .idle)
    (hfans : call.fansOut = true) :
    Inv shapes (state.at thread (call.start thread)) := by
  cases call with
  | parallelFor call =>
      exact hinv.prepare hpc rfl rfl rfl (fun _ _ => rfl) trivial rfl rfl
        (fun _ => .refl _) ⟨rfl, rfl⟩ fun _ => ⟨rfl, rfl⟩
  | forkJoin pool nTasks gateSkipped =>
      have htasks : nTasks ≠ 0 := by
        simp only [Call.fansOut, decide_eq_true_eq] at hfans
        omega
      refine hinv.prepare hpc rfl rfl rfl (fun _ _ => rfl) ?_ rfl rfl
        (fun _ => .refl _) ⟨rfl, rfl⟩ fun _ => ⟨rfl, rfl⟩
      simp [Call.start, State.Filled, htasks]

omit hinv in
/-- One operation of the drain changes marks at most. -/
theorem drainStep_eq (shapes : ℕ → PoolShape) (state : State) (pool : ℕ)
    (look : Look) : ∃ cleared, (state.drainStep shapes pool look).1 =
      state.clearStamps pool cleared := by
  have hnone : state.clearStamps pool [] = state := by
    simp [State.clearStamps]
  unfold State.drainStep
  split
  · exact ⟨[], hnone.symm⟩
  · split_ifs <;> exact ⟨[], hnone.symm⟩
  · exact ⟨_, rfl⟩

theorem Inv.step_entryDrain {call : ForCall} {look : Look}
    (hpc : state.producers thread = .entryDrain call look)
    (hstep : state.producerStep shapes thread = some after) :
    Inv shapes after := by
  obtain ⟨cleared, hcleared⟩ := drainStep_eq shapes state call.pool look
  simp only [State.producerStep, hpc, Option.some.injEq] at hstep
  subst hstep
  rw [hcleared]
  cases (state.drainStep shapes call.pool look).2 with
  | none =>
      exact hinv.prepare hpc rfl rfl rfl (fun _ _ => rfl) trivial rfl rfl
        (alike_clearStamps _ _) ⟨rfl, rfl⟩ fun _ => ⟨rfl, rfl⟩
  | some look =>
      exact hinv.prepare hpc rfl rfl rfl (fun _ _ => rfl) trivial rfl rfl
        (alike_clearStamps _ _) ⟨rfl, rfl⟩ fun _ => ⟨rfl, rfl⟩

omit hinv in
theorem setDesc_of_ne {own desc : DescId} {contents : JobDescriptor}
    (hown : own.thread = thread) (hne : desc.thread ≠ thread) :
    (state.setDesc own contents).descs desc = state.descs desc := by
  refine Function.update_of_ne ?_ _ _
  rintro rfl
  exact hne hown

theorem Inv.step_fillKey {call : ForCall}
    (hpc : state.producers thread = .fillKey call)
    (hstep : state.producerStep shapes thread = some after) :
    Inv shapes after := by
  simp only [State.producerStep, hpc] at hstep
  split_ifs at hstep <;> simp only [Option.some.injEq] at hstep <;> subst hstep
  · exact hinv.prepare hpc rfl rfl rfl (fun _ _ => rfl) trivial rfl rfl
      (fun _ => .refl _) ⟨rfl, rfl⟩ fun _ => ⟨rfl, rfl⟩
  · exact hinv.prepare hpc rfl rfl rfl (fun _ => setDesc_of_ne rfl) trivial
      rfl rfl (fun _ => .refl _) ⟨rfl, rfl⟩ fun _ => ⟨rfl, rfl⟩

theorem Inv.step_fillEntry {call : ForCall} {keyMatches : Bool}
    (hpc : state.producers thread = .fillEntry call keyMatches)
    (hstep : state.producerStep shapes thread = some after) :
    Inv shapes after := by
  simp only [State.producerStep, hpc] at hstep
  split_ifs at hstep <;> simp only [Option.some.injEq] at hstep <;> subst hstep
  · exact hinv.prepare hpc rfl rfl rfl (fun _ _ => rfl) trivial rfl rfl
      (fun _ => .refl _) ⟨rfl, rfl⟩ fun _ => ⟨rfl, rfl⟩
  · exact hinv.prepare hpc rfl rfl rfl (fun _ => setDesc_of_ne rfl) trivial
      rfl rfl (fun _ => .refl _) ⟨rfl, rfl⟩ fun _ => ⟨rfl, rfl⟩

theorem Inv.step_fillBase {call : ForCall} {keyMatches : Bool}
    (hpc : state.producers thread = .fillBase call keyMatches)
    (hstep : state.producerStep shapes thread = some after) :
    Inv shapes after := by
  simp only [State.producerStep, hpc] at hstep
  split_ifs at hstep with hbase <;> simp only [Option.some.injEq] at hstep <;>
    subst hstep
  · exact hinv.prepare hpc rfl rfl rfl (fun _ _ => rfl) hbase rfl rfl
      (fun _ => .refl _) ⟨rfl, rfl⟩ fun _ => ⟨rfl, rfl⟩
  · refine hinv.prepare hpc rfl rfl rfl (fun _ => setDesc_of_ne rfl) ?_ rfl rfl
      (fun _ => .refl _) ⟨rfl, rfl⟩ fun _ => ⟨rfl, rfl⟩
    simp [State.Filled, State.at, State.setDesc]

theorem Inv.step_shape {call : ForCall} {keyMatches : Bool}
    (hpc : state.producers thread = .shape call keyMatches)
    (hstep : state.producerStep shapes thread = some after) :
    Inv shapes after := by
  have hfilled := hinv.filled thread
  rw [hpc] at hfilled
  simp only [State.producerStep, hpc] at hstep
  split_ifs at hstep <;> simp only [Option.some.injEq] at hstep <;> subst hstep
  · exact hinv.prepare hpc rfl rfl rfl (fun _ _ => rfl) trivial rfl rfl
      (fun _ => .refl _) ⟨rfl, rfl⟩ fun _ => ⟨rfl, rfl⟩
  · exact hinv.prepare hpc rfl rfl rfl (fun _ _ => rfl) (.inl ⟨rfl, hfilled⟩)
      rfl rfl (fun _ => .refl _) ⟨rfl, rfl⟩ fun _ => ⟨rfl, rfl⟩

/-! ## The gate -/

/-- Nothing but the lease looks at the mutex. -/
theorem Inv.setMutex (pool : ℕ) (holder : Option ℕ) :
    Inv shapes (state.setMutex pool holder) where
  gate := hinv.gate
  filled other := (hinv.filled other).congr fun _ _ => rfl
  scopes := ⟨hinv.scopes.producer, hinv.scopes.worker, hinv.scopes.saved,
    hinv.scopes.producerOpen, hinv.scopes.workerOpen, hinv.scopes.framed⟩
  slots := hinv.slots

/-- The section is entered while nobody is in it. -/
theorem Inv.enter {ticket : Ticket}
    (hpc : state.producers thread = .lease ticket)
    (hfree : state.gate ticket.pool = none) :
    Inv shapes ((state.setGate ticket.pool (some thread)).at thread
      ticket.leased) := by
  have hfilled := hinv.filled thread
  rw [hpc] at hfilled
  have hholds : ticket.leased.holds = some ticket.pool := by
    unfold Ticket.leased
    split_ifs <;> rfl
  have hscope : ticket.leased.scope = none := by
    unfold Ticket.leased
    split_ifs <;> rfl
  have hpending : ∀ slot, ticket.leased.pending slot = none := by
    intro slot
    unfold Ticket.leased
    split_ifs <;> rfl
  have hmine : ∀ pool, state.gate pool ≠ some thread := by
    intro pool hgate
    have := (hinv.gate pool thread).1 hgate
    simp [hpc, ProducerPc.holds] at this
  constructor
  · intro pool other
    by_cases hpool : pool = ticket.pool <;> by_cases hother : other = thread
    · simp [State.at, State.setGate, hpool, hother, hholds]
    · have := (hinv.gate ticket.pool other)
      simp only [hfree, reduceCtorEq, false_iff] at this
      simp [State.at, State.setGate, hpool, hother, Ne.symm hother, this]
    · simp [State.at, State.setGate, hpool, hother, hholds, hmine,
        Ne.symm hpool]
    · simp [State.at, State.setGate, hpool, hother, hinv.gate]
  · intro other
    by_cases hother : other = thread
    · subst hother
      simp only [State.at, Function.update_self]
      unfold Ticket.leased
      simp only [State.Filled] at hfilled
      split_ifs at hfilled ⊢ <;> exact hfilled
    · simp only [State.at, Function.update_of_ne hother]
      exact (hinv.filled other).congr fun _ _ => rfl
  · exact hinv.scopes.unscoped rfl rfl rfl (fun _ => rfl) (by rw [hpc]; rfl)
      hscope
  · intro pool slot hworker
    have hnone : ∀ part : ProducerPc → Option Job,
        part ticket.leased = none →
        (((state.setGate ticket.pool (some thread)).at thread
          ticket.leased).gate pool).bind (fun other =>
            part (((state.setGate ticket.pool (some thread)).at thread
              ticket.leased).producers other)) =
        (state.gate pool).bind fun other => part (state.producers other) := by
      intro part hpart
      by_cases hpool : pool = ticket.pool
      · simp [State.at, State.setGate, hpool, hfree, hpart]
      · simp only [State.at, State.setGate, Function.update_of_ne hpool]
        refine Option.bind_congr fun other hholder => ?_
        rw [Function.update_of_ne]
        rintro rfl
        exact hmine pool hholder
    rw [State.pending, State.posted, hnone _ (hpending slot),
      hnone _ (posted_of_pending (hpending slot))]
    exact (hinv.slots pool slot hworker).congr (.refl _) fun _ _ => id

theorem Inv.step_lease {ticket : Ticket}
    (hpc : state.producers thread = .lease ticket)
    (hfree : state.gate ticket.pool = none)
    (hstep : state.producerStep shapes thread = some after) :
    Inv shapes after := by
  have hentered := hinv.enter hpc hfree
  simp only [State.producerStep, hpc] at hstep
  split_ifs at hstep
  all_goals
    simp only [Option.some.injEq] at hstep
    subst hstep
  · exact hentered
  · exact hentered.setMutex _ _

theorem Inv.step_reserve {ticket : Ticket}
    (hpc : state.producers thread = .reserve ticket)
    (hstep : state.producerStep shapes thread = some after) :
    Inv shapes after := by
  have hfilled := hinv.filled thread
  rw [hpc] at hfilled
  simp only [State.producerStep, hpc, Option.some.injEq] at hstep
  subst hstep
  exact hinv.prepare hpc rfl rfl rfl (fun _ _ => rfl) hfilled rfl rfl
    (fun _ => .refl _) ⟨rfl, rfl⟩ fun _ => ⟨rfl, rfl⟩

theorem Inv.step_roots {ticket : Ticket} {left : ℕ}
    (hpc : state.producers thread = .roots ticket left)
    (hstep : state.producerStep shapes thread = some after) :
    Inv shapes after := by
  have hfilled : ticket.desc = .onStack thread := by
    have := hinv.filled thread
    rwa [hpc] at this
  cases left with
  | zero =>
      simp only [State.producerStep, hpc, Option.some.injEq] at hstep
      subst hstep
      refine hinv.prepare hpc rfl rfl rfl
        (fun _ => setDesc_of_ne (by rw [hfilled]; rfl)) ?_ rfl rfl
        (fun _ => .refl _) ⟨rfl, rfl⟩ fun _ => ⟨rfl, rfl⟩
      refine .inr ⟨hfilled, ?_, ?_⟩ <;> simp [State.at, State.setDesc]
  | succ left =>
      simp only [State.producerStep, hpc, Option.some.injEq] at hstep
      subst hstep
      exact hinv.prepare hpc rfl rfl rfl (fun _ _ => rfl) hfilled rfl rfl
        (fun _ => .refl _) ⟨rfl, rfl⟩ fun _ => ⟨rfl, rfl⟩

/-- The section is left by a producer with no dispatch. -/
theorem Inv.leaveSection {pool : ℕ}
    (hpc : state.producers thread = .release pool) :
    Inv shapes ((state.setGate pool none).at thread .idle) := by
  have hmine : state.gate pool = some thread :=
    (hinv.gate pool thread).2 (by rw [hpc]; rfl)
  constructor
  · intro other holder
    by_cases hpool : other = pool <;> by_cases hholder : holder = thread
    · simp [State.at, State.setGate, hpool, hholder, ProducerPc.holds]
    · have hnot := (hinv.gate pool holder).not.1
        (by rw [hmine]; simpa using Ne.symm hholder)
      simp [State.at, State.setGate, hpool, hholder, hnot]
    · have hnot := (hinv.gate other thread).not.2
        (by rw [hpc]; simpa [ProducerPc.holds] using Ne.symm hpool)
      simp [State.at, State.setGate, hpool, hholder, ProducerPc.holds, hnot]
    · simp [State.at, State.setGate, hpool, hholder, hinv.gate]
  · intro other
    by_cases hother : other = thread
    · subst hother
      simp [State.at, State.Filled]
    · simp only [State.at, Function.update_of_ne hother]
      exact (hinv.filled other).congr fun _ _ => rfl
  · exact hinv.scopes.unscoped rfl rfl rfl (fun _ => rfl) (by rw [hpc]; rfl) rfl
  · intro other slot hworker
    by_cases hpool : other = pool
    · subst hpool
      have hslot : SlotInv state.Bare none none
          (state.slots (other, slot)) := by
        have hslot := hinv.own ((hinv.gate other thread).1 hmine) hworker
        rwa [hpc] at hslot
      have hnone : ((state.setGate other none).at thread .idle).gate other =
          none := by simp [State.at, State.setGate]
      rw [State.pending, State.posted, hnone]
      exact hslot.congr (.refl _) fun _ _ => id
    · have hsame : ∀ part : ProducerPc → Option Job,
          ((((state.setGate pool none).at thread .idle).gate other).bind
            fun holder => part
              (((state.setGate pool none).at thread .idle).producers
                holder)) =
          (state.gate other).bind fun holder =>
            part (state.producers holder) := by
        intro part
        simp only [State.at, State.setGate, Function.update_of_ne hpool]
        refine Option.bind_congr fun holder hholder => ?_
        rw [Function.update_of_ne]
        rintro rfl
        have := (hinv.gate other holder).1 hholder
        rw [hpc] at this
        exact hpool (by simpa [ProducerPc.holds] using this.symm)
      have hpending := hsame (ProducerPc.pending slot)
      have hposted := hsame (ProducerPc.posted slot)
      rw [State.pending, State.posted, hpending, hposted]
      exact (hinv.slots other slot hworker).congr (.refl _) fun _ _ => id

theorem Inv.step_release {pool : ℕ}
    (hpc : state.producers thread = .release pool)
    (hstep : state.producerStep shapes thread = some after) :
    Inv shapes after := by
  have hleft := hinv.leaveSection hpc
  simp only [State.producerStep, hpc, Option.some.injEq] at hstep
  subst hstep
  split_ifs
  · exact hleft.setMutex _ _
  · exact hleft

/-! ## The dispatch -/

theorem Inv.step_begin {ticket : Ticket}
    (hpc : state.producers thread = .begin ticket)
    (hstep : state.producerStep shapes thread = some after) :
    Inv shapes after := by
  have hfilled := hinv.filled thread
  rw [hpc] at hfilled
  simp only [State.producerStep, hpc, Option.some.injEq] at hstep
  subst hstep
  refine hinv.dispatch hpc rfl rfl rfl rfl hfilled rfl rfl ⟨rfl, rfl⟩
    (fun _ => rfl) (fun _ _ _ => .refl _) ?_
  intro pool slot hmine hworker
  have hslot := hinv.own (hpc ▸ hmine) hworker
  rw [hpc] at hslot
  exact hslot.begin

omit hinv in
theorem pending_publishFrom (job : Job) (next slot : ℕ) :
    (job.publishFrom shapes next).pending slot = some job := by
  unfold Job.publishFrom
  split_ifs <;> rfl

omit hinv in
theorem posted_publishFrom (job : Job) {next slot : ℕ}
    (hslot : slot < (shapes job.pool).participants) :
    (job.publishFrom shapes next).posted slot =
      if slot < next then some job else none := by
  unfold Job.publishFrom
  split_ifs with hnext hreuse hlt hlt hreuse hlt hlt <;>
    simp_all [ProducerPc.posted, ProducerPc.pending] <;> omega

omit hinv in
theorem holds_publishFrom (job : Job) (next : ℕ) :
    (job.publishFrom shapes next).holds = some job.pool := by
  unfold Job.publishFrom
  split_ifs <;> rfl

omit hinv in
theorem scope_publishFrom (job : Job) (next : ℕ) :
    (job.publishFrom shapes next).scope = none := by
  unfold Job.publishFrom
  split_ifs <;> rfl

omit hinv in
theorem filled_publishFrom {job : Job} {next : ℕ}
    (hdescribes : state.Describes thread job.pool job.desc) :
    state.Filled thread (job.publishFrom shapes next) := by
  unfold Job.publishFrom
  split_ifs <;> exact hdescribes

theorem Inv.step_drain {job : Job} {look : Look}
    (hpc : state.producers thread = .drain job look)
    (hstep : state.producerStep shapes thread = some after) :
    Inv shapes after := by
  have hfilled := hinv.filled thread
  rw [hpc] at hfilled
  obtain ⟨cleared, hcleared⟩ := drainStep_eq shapes state job.pool look
  simp only [State.producerStep, hpc, Option.some.injEq] at hstep
  subst hstep
  rw [hcleared]
  have hslot : ∀ pool slot, (ProducerPc.drain job look).holds = some pool →
      HasWorker shapes pool slot →
      SlotInv state.Bare (some job) none
        ((state.clearStamps job.pool cleared).slots (pool, slot)) := by
    intro pool slot hmine hworker
    have hslot := hinv.own (hpc ▸ hmine) hworker
    rw [hpc] at hslot
    exact hslot.congr (alike_clearStamps _ _ _) fun _ _ => id
  cases (state.drainStep shapes job.pool look).2 with
  | some look =>
      exact hinv.dispatch hpc rfl rfl rfl rfl hfilled rfl rfl ⟨rfl, rfl⟩
        (fun id => (alike_clearStamps _ _ id).worker)
        (fun _ _ _ => alike_clearStamps _ _ _) hslot
  | none =>
      refine hinv.dispatch hpc rfl rfl (holds_publishFrom _ _) rfl
        (filled_publishFrom hfilled) rfl rfl ⟨rfl, scope_publishFrom _ _⟩
        (fun id => (alike_clearStamps _ _ id).worker)
        (fun _ _ _ => alike_clearStamps _ _ _) ?_
      intro pool slot hmine hworker
      obtain rfl : job.pool = pool := by
        simpa [ProducerPc.holds] using hmine
      have hpos := hworker.1
      rw [Option.elim_none, pending_publishFrom,
        posted_publishFrom job hworker.2, if_neg (by omega)]
      exact hslot _ slot hmine hworker

omit hinv in
theorem alike_setSlot {pool slot : ℕ} {contents : Slot}
    (halike : (state.slots (pool, slot)).Alike contents) (id : ℕ × ℕ) :
    (state.slots id).Alike ((state.setSlot pool slot contents).slots id) := by
  by_cases hid : id = (pool, slot)
  · subst hid
    simpa [State.setSlot] using halike
  · simpa [State.setSlot, hid] using Slot.Alike.refl _

omit hinv in
theorem setSlot_of_ne {pool slot : ℕ} {contents : Slot} {id : ℕ × ℕ}
    (hne : id ≠ (pool, slot)) :
    (state.setSlot pool slot contents).slots id = state.slots id :=
  Function.update_of_ne hne _ _

omit hinv in
theorem setSlot_worker {pool slot : ℕ} {contents : Slot}
    (hworker : contents.worker = (state.slots (pool, slot)).worker)
    (id : ℕ × ℕ) : ((state.setSlot pool slot contents).slots id).worker =
      (state.slots id).worker := by
  by_cases hid : id = (pool, slot)
  · simpa [hid, State.setSlot] using hworker
  · rw [setSlot_of_ne hid]

theorem Inv.step_publishDesc {job : Job} {next : ℕ}
    (hpc : state.producers thread = .publishDesc job next)
    (hstep : state.producerStep shapes thread = some after) :
    Inv shapes after := by
  have hfilled := hinv.filled thread
  rw [hpc] at hfilled
  simp only [State.producerStep, hpc, Option.some.injEq] at hstep
  subst hstep
  refine hinv.dispatch hpc rfl rfl rfl rfl hfilled rfl rfl ⟨rfl, rfl⟩
    (setSlot_worker rfl)
    (fun _ _ _ => alike_setSlot (by exact ⟨rfl, rfl, rfl⟩) _) ?_
  intro pool slot hmine hworker
  have hslot := hinv.own (hpc ▸ hmine) hworker
  rw [hpc] at hslot
  exact hslot.congr (alike_setSlot (by exact ⟨rfl, rfl, rfl⟩) _) fun _ _ => id

theorem Inv.step_publish {job : Job} {next : ℕ}
    (hpc : state.producers thread = .publish job next)
    (hstep : state.producerStep shapes thread = some after) :
    Inv shapes after := by
  have hfilled := hinv.filled thread
  rw [hpc] at hfilled
  simp only [State.producerStep, hpc, Option.some.injEq] at hstep
  subst hstep
  refine hinv.dispatch hpc rfl rfl (holds_publishFrom _ _) rfl
    (filled_publishFrom hfilled) rfl rfl ⟨rfl, scope_publishFrom _ _⟩
    (setSlot_worker rfl) ?_ ?_
  · intro pool slot hother
    have hne : (pool, slot) ≠ (job.pool, next) := by
      rintro ⟨⟩
      exact hother rfl
    simpa [setSlot_of_ne hne] using Slot.Alike.refl _
  · intro pool slot hmine hworker
    obtain rfl : job.pool = pool := by simpa [ProducerPc.holds] using hmine
    have hslot : SlotInv state.Bare (some job)
        (if slot < next then some job else none)
        (state.slots (job.pool, slot)) := by
      have hslot := hinv.own (hpc ▸ hmine) hworker
      rwa [hpc] at hslot
    rw [pending_publishFrom, posted_publishFrom job hworker.2]
    by_cases hnext : slot = next
    · subst hnext
      rw [if_neg (lt_irrefl _)] at hslot
      simpa [State.setSlot] using hslot.publish job
    · have hiff : slot < next + 1 ↔ slot < next := by omega
      have hne : (job.pool, slot) ≠ (job.pool, next) := by simpa using hnext
      simpa [setSlot_of_ne hne, hiff] using hslot

theorem Inv.step_record {job : Job}
    (hpc : state.producers thread = .record job)
    (hstep : state.producerStep shapes thread = some after) :
    Inv shapes after := by
  have hfilled := hinv.filled thread
  rw [hpc] at hfilled
  simp only [State.producerStep, hpc, Option.some.injEq] at hstep
  subst hstep
  refine hinv.dispatch hpc rfl rfl rfl rfl hfilled rfl rfl ⟨rfl, rfl⟩
    (fun _ => rfl) (fun _ _ _ => .refl _) ?_
  intro pool slot hmine hworker
  have hslot := hinv.own (hpc ▸ hmine) hworker
  rwa [hpc] at hslot

theorem Inv.step_join {job : Job} {next : ℕ}
    (hpc : state.producers thread = .join job next)
    (hstep : state.producerStep shapes thread = some after) :
    Inv shapes after := by
  have hfilled := hinv.filled thread
  rw [hpc] at hfilled
  have hown : ∀ slot, HasWorker shapes job.pool slot →
      SlotInv state.Bare (if next ≤ slot then some job else none)
        (if next ≤ slot then some job else none)
        (state.slots (job.pool, slot)) := by
    intro slot hworker
    have hslot := hinv.own (by rw [hpc]; rfl) hworker
    rwa [hpc] at hslot
  simp only [State.producerStep, hpc] at hstep
  split_ifs at hstep with hlt hdone <;>
    simp only [Option.some.injEq] at hstep <;> subst hstep
  · refine hinv.dispatch hpc rfl rfl rfl rfl hfilled rfl rfl ⟨rfl, rfl⟩
      (fun _ => rfl) (fun _ _ _ => .refl _) ?_
    intro pool slot hmine hworker
    obtain rfl : job.pool = pool := by simpa [ProducerPc.holds] using hmine
    have hslot := hown slot hworker
    simp only [ProducerPc.posted, ProducerPc.pending]
    by_cases hnext : slot = next
    · subst hnext
      rw [if_pos le_rfl] at hslot
      rw [if_neg (by omega)]
      exact hslot.pass hdone
    · have hiff : next + 1 ≤ slot ↔ next ≤ slot := by omega
      simpa [hiff] using hslot
  · refine hinv.dispatch hpc rfl rfl rfl rfl trivial rfl rfl ⟨rfl, rfl⟩
      (fun _ => rfl) (fun _ _ _ => .refl _) ?_
    intro pool slot hmine hworker
    obtain rfl : job.pool = pool := by simpa [ProducerPc.holds] using hmine
    have hslot := hown slot hworker
    have hpast := hworker.2
    rwa [if_neg (by omega)] at hslot

theorem Inv.step_coverStamp {job : Job} {next : ℕ}
    (hpc : state.producers thread = .coverStamp job next)
    (hstep : state.producerStep shapes thread = some after) :
    Inv shapes after := by
  have hfilled := hinv.filled thread
  rw [hpc] at hfilled
  have hown : ∀ slot, HasWorker shapes job.pool slot →
      SlotInv state.Bare (if next < slot then some job else none)
        (if next < slot then some job else none)
        (state.slots (job.pool, slot)) := by
    intro slot hworker
    have hslot := hinv.own (by rw [hpc]; rfl) hworker
    rwa [hpc] at hslot
  have hstamped : ∀ pc : ProducerPc, pc.holds = some job.pool →
      pc.scope = none →
      (∀ slot, pc.pending slot = if next < slot then some job else none) →
      (∀ slot, pc.posted slot = if next < slot then some job else none) →
      state.Filled thread pc →
      (state.slots (job.pool, next)).mailbox = job.publishedMb →
      Inv shapes ((state.setSlot job.pool next
        { state.slots (job.pool, next) with
          mailbox := job.doneSentinelMb }).at thread pc) := by
    intro pc hholds hscope hpending hposted hfilled hword
    refine hinv.dispatch hpc rfl rfl hholds rfl hfilled rfl rfl ⟨rfl, hscope⟩
      (setSlot_worker rfl) ?_ ?_
    · intro pool slot hother
      have hne : (pool, slot) ≠ (job.pool, next) := by
        rintro ⟨⟩
        exact hother rfl
      simpa [setSlot_of_ne hne] using Slot.Alike.refl _
    · intro pool slot hmine hworker
      obtain rfl : job.pool = pool := by simpa [ProducerPc.holds] using hmine
      have hslot := hown slot hworker
      rw [hpending, hposted]
      by_cases hnext : slot = next
      · subst hnext
        rw [if_neg (lt_irrefl _)] at hslot ⊢
        simpa [State.setSlot] using
          hslot.coverStamp (by rw [hword]; rfl) (by rw [hword]; rfl)
            (by rw [hword]; rfl)
      · have hne : (job.pool, slot) ≠ (job.pool, next) := by simpa using hnext
        simpa [setSlot_of_ne hne] using hslot
  simp only [State.producerStep, hpc] at hstep
  split_ifs at hstep with hword hreuse <;>
    simp only [Option.some.injEq] at hstep <;> subst hstep
  · exact hstamped _ rfl rfl (fun _ => rfl) (fun _ => rfl) hfilled hword
  · exact hstamped _ rfl rfl (fun _ => rfl) (fun _ => rfl) hfilled hword
  · refine hinv.dispatch hpc rfl rfl rfl rfl hfilled rfl rfl ⟨rfl, rfl⟩
      (fun _ => rfl) (fun _ _ _ => .refl _) ?_
    intro pool slot hmine hworker
    obtain rfl : job.pool = pool := by simpa [ProducerPc.holds] using hmine
    exact hown slot hworker

theorem Inv.step_coverMark {job : Job} {next : ℕ}
    (hpc : state.producers thread = .coverMark job next)
    (hstep : state.producerStep shapes thread = some after) :
    Inv shapes after := by
  have hfilled := hinv.filled thread
  rw [hpc] at hfilled
  simp only [State.producerStep, hpc, Option.some.injEq] at hstep
  subst hstep
  refine hinv.dispatch hpc rfl rfl rfl rfl hfilled rfl rfl ⟨rfl, rfl⟩
    (setSlot_worker rfl)
    (fun _ _ _ => alike_setSlot (by exact ⟨rfl, rfl, rfl⟩) _) ?_
  intro pool slot hmine hworker
  have hslot := hinv.own (hpc ▸ hmine) hworker
  rw [hpc] at hslot
  exact hslot.congr (alike_setSlot (by exact ⟨rfl, rfl, rfl⟩) _) fun _ _ => id

end Calls

/-! ## Scopes -/

section Scopes

variable (hinv : Inv shapes state)

/-- A producer constructs a `TlsContextScope` and begins a share. -/
theorem Scoped.enter (hscopes : Scoped shapes state) {pool slot : ℕ}
    (pc : ProducerPc) (frame : Frame) (contents : Slot)
    (hworker : contents.worker = (state.slots (pool, slot)).worker)
    (hbefore : (state.producers thread).scope = none)
    (hscope : pc.scope = some (pool, slot))
    (hsaved : pc.saved = state.contexts (.producer thread))
    (hpool : frame.pool = pool) (hslot : frame.slot = slot) :
    Scoped shapes (((state.setSlot pool slot contents).enterScope thread
      pool slot frame).at thread pc) := by
  constructor
  · intro other
    by_cases hother : other = thread
    · simp [hother, hscope, scopeContext]
    · simpa [hother] using hscopes.producer other
  · intro other rank
    simpa using hscopes.worker other rank
  · intro other
    by_cases hother : other = thread
    · simp [hother, hsaved, hscopes.producer, hbefore, scopeContext]
    · simpa [hother] using hscopes.saved other
  · intro other hopen
    by_cases hother : other = thread
    · simp [hother, hscope]
    · simpa [hother] using hscopes.producerOpen other (by
        simpa [hother] using hopen)
  · intro other rank hopen
    have hsame := setSlot_worker hworker (other, rank)
    have hpc := hscopes.workerOpen other rank (by simpa using hopen)
    simpa [hsame] using hpc
  · intro other inner hmem
    by_cases hother : other = .producer thread
    · subst hother
      obtain rfl : inner = frame := by
        simpa using hmem
      simp [hpool, hslot]
    · simpa [hother] using hscopes.framed other inner (by
        simpa [hother] using hmem)

/-- A producer leaves its share, and its scope with it. -/
theorem Scoped.exit (hscopes : Scoped shapes state) (pc : ProducerPc)
    (hframes : state.frames (.producer thread) = [])
    (hscope : pc.scope = none) :
    Scoped shapes ((state.setContext (.producer thread)
      (state.producers thread).saved).at thread pc) := by
  constructor
  · intro other
    by_cases hother : other = thread
    · simp [State.at, State.setContext, hother, hscope, scopeContext,
        hscopes.saved]
    · simpa [State.at, State.setContext, hother] using hscopes.producer other
  · intro other rank
    simpa [State.at, State.setContext] using hscopes.worker other rank
  · intro other
    by_cases hother : other = thread
    · simpa [State.at, hother] using saved_of_scope hscope
    · simpa [State.at, State.setContext, hother] using hscopes.saved other
  · intro other hopen
    by_cases hother : other = thread
    · exact absurd (hother ▸ hframes) hopen
    · simpa [State.at, State.setContext, hother] using
        hscopes.producerOpen other hopen
  · exact hscopes.workerOpen
  · intro other frame hmem
    by_cases hother : other = .producer thread
    · subst hother
      simp [State.at, State.setContext, hframes] at hmem
    · simpa [State.at, State.setContext, hother] using
        hscopes.framed other frame hmem

include hinv

theorem Inv.step_enterSlot0 {job : Job}
    (hpc : state.producers thread = .enterSlot0 job)
    (hstep : state.producerStep shapes thread = some after) :
    Inv shapes after := by
  have hfilled := hinv.filled thread
  rw [hpc] at hfilled
  simp only [State.producerStep, hpc, Option.some.injEq] at hstep
  subst hstep
  have hframe : (state.slot0Frame job).pool = job.pool ∧
      (state.slot0Frame job).slot = 0 := by
    unfold State.slot0Frame
    rcases hfilled with ⟨hdesc, -⟩ | ⟨hdesc, -, hdrains⟩
    · simp [hdesc]
    · simpa [hdesc] using hdesc ▸ hdrains
  have hscopes := hinv.scopes.enter
    (.slot0 job (state.contexts (.producer thread))) (state.slot0Frame job)
    (state.slots (job.pool, 0)) rfl (by rw [hpc]; rfl) rfl rfl hframe.1 hframe.2
  have hsame : state.setSlot job.pool 0 (state.slots (job.pool, 0)) =
      state := by simp [State.setSlot]
  rw [hsame] at hscopes
  refine hinv.producer hpc rfl rfl rfl (fun _ _ => rfl) hfilled hscopes
    (fun _ _ _ => .refl _) ?_
  intro pool slot hmine hworker
  have hslot := hinv.own (hpc ▸ hmine) hworker
  rw [hpc] at hslot
  exact hslot.congr (.refl _) fun _ _ => id

theorem Inv.step_slot0 {job : Job} {saved : ThreadContext}
    (hpc : state.producers thread = .slot0 job saved)
    (hstep : state.producerStep shapes thread = some after) :
    Inv shapes after := by
  have hfilled := hinv.filled thread
  rw [hpc] at hfilled
  simp only [State.producerStep, hpc] at hstep
  split_ifs at hstep with hframes
  simp only [Option.some.injEq] at hstep
  subst hstep
  have hscopes := hinv.scopes.exit (.join job 1) hframes rfl
  rw [hpc] at hscopes
  refine hinv.producer hpc rfl rfl rfl (fun _ _ => rfl) hfilled hscopes
    (fun _ _ _ => .refl _) ?_
  intro pool slot hmine hworker
  have hslot := hinv.own (hpc ▸ hmine) hworker
  rw [hpc] at hslot
  have hpos : 1 ≤ slot := hworker.1
  simp only [ProducerPc.posted, ProducerPc.pending, if_pos hpos]
  exact hslot.congr (.refl _) fun _ _ => id

theorem Inv.step_cover {job : Job} {next : ℕ} {saved : ThreadContext}
    (hpc : state.producers thread = .cover job next saved)
    (hstep : state.producerStep shapes thread = some after) :
    Inv shapes after := by
  have hfilled := hinv.filled thread
  rw [hpc] at hfilled
  simp only [State.producerStep, hpc] at hstep
  split_ifs at hstep with hframes
  simp only [Option.some.injEq] at hstep
  subst hstep
  have hscopes := hinv.scopes.exit (.coverStamp job next) hframes rfl
  rw [hpc] at hscopes
  refine hinv.producer hpc rfl rfl rfl (fun _ _ => rfl) hfilled hscopes
    (fun _ _ _ => .refl _) ?_
  intro pool slot hmine hworker
  have hslot := hinv.own (hpc ▸ hmine) hworker
  rw [hpc] at hslot
  exact hslot.congr (.refl _) fun _ _ => id

/-- A late worker's rank is claimed. -/
theorem Inv.coverStep (hstep : state.coverStep shapes thread = some after) :
    Inv shapes after := by
  obtain ⟨job, next, hpc⟩ :
      ∃ job next, state.producers thread = .join job next := by
    unfold State.coverStep at hstep
    split at hstep
    · exact ⟨_, _, ‹_›⟩
    · simp at hstep
  have hfilled := hinv.filled thread
  rw [hpc] at hfilled
  simp only [State.coverStep, hpc] at hstep
  split_ifs at hstep with hguard
  simp only [Option.some.injEq] at hstep
  subst hstep
  obtain ⟨hlt, -, hskip, hbase, hclaim⟩ := hguard
  have hscopes := hinv.scopes.enter
    (.cover job next (state.contexts (.producer thread)))
    ⟨job.pool, next, .body⟩
    { state.slots (job.pool, next) with claimedAt := job.generation } rfl (by rw [hpc]; rfl) rfl rfl rfl rfl
  refine hinv.producer hpc rfl rfl rfl (fun _ _ => rfl) hfilled hscopes ?_ ?_
  · intro pool slot hother
    have hne : (pool, slot) ≠ (job.pool, next) := by
      rintro ⟨⟩
      exact hother rfl
    simpa [setSlot_of_ne hne] using Slot.Alike.refl _
  · intro pool slot hmine hworker
    obtain rfl : job.pool = pool := by simpa [ProducerPc.holds] using hmine
    have hslot := hinv.own (hpc ▸ hmine) hworker
    rw [hpc] at hslot
    simp only [ProducerPc.posted, ProducerPc.pending] at hslot ⊢
    by_cases hnext : slot = next
    · subst hnext
      rw [if_pos le_rfl] at hslot
      rw [if_neg (lt_irrefl _)]
      have hcovered := hslot.cover hskip hbase (by
        simpa [tryClaimRank] using hclaim)
      exact hcovered.congr (by
        simpa [State.setSlot] using Slot.Alike.refl _) (by simp)
    · have hiff : next < slot ↔ next ≤ slot := by omega
      have hne : (job.pool, slot) ≠ (job.pool, next) := by simpa using hnext
      simp only [hiff]
      exact hslot.congr (by
        simpa [setSlot_of_ne hne] using Slot.Alike.refl _) fun _ _ => id

/-- Every step of a producer. -/
theorem Inv.producerStep
    (hapart : SectionsApart state (.producer thread))
    (hstep : state.producerStep shapes thread = some after) :
    Inv shapes after := by
  cases hpc : state.producers thread with
  | idle => simp [State.producerStep, hpc] at hstep
  | entryDrain => exact hinv.step_entryDrain hpc hstep
  | fillKey => exact hinv.step_fillKey hpc hstep
  | fillEntry => exact hinv.step_fillEntry hpc hstep
  | fillBase => exact hinv.step_fillBase hpc hstep
  | shape => exact hinv.step_shape hpc hstep
  | lease ticket =>
      have hfree := hapart ticket.pool (by simp [hpc, ProducerPc.enters])
      exact hinv.step_lease hpc hfree hstep
  | reserve => exact hinv.step_reserve hpc hstep
  | roots => exact hinv.step_roots hpc hstep
  | begin => exact hinv.step_begin hpc hstep
  | drain => exact hinv.step_drain hpc hstep
  | publishDesc => exact hinv.step_publishDesc hpc hstep
  | publish => exact hinv.step_publish hpc hstep
  | record => exact hinv.step_record hpc hstep
  | enterSlot0 => exact hinv.step_enterSlot0 hpc hstep
  | slot0 => exact hinv.step_slot0 hpc hstep
  | join => exact hinv.step_join hpc hstep
  | cover => exact hinv.step_cover hpc hstep
  | coverStamp => exact hinv.step_coverStamp hpc hstep
  | coverMark => exact hinv.step_coverMark hpc hstep
  | release => exact hinv.step_release hpc hstep

end Scopes

end Citor.DequeOwners
