import Citor.Dispatch.OwnerWorkers

/-!
# One owner of each deque

The Chase-Lev deque of a slot lets one thread at a time push and pop.  The
worker of the slot, the producer in slot 0 and the producer that covers a late
worker's rank all do so, and nested fork-join calls with them; no two of them
at once, in every run where one producer at a time is in a pool's dispatch
section and shares begin with their ranks.
-/

namespace Citor.DequeOwners

open Interleaving
open Reentrancy (ThreadId ThreadContext PoolShape)

section Owners

variable {shapes : ℕ → PoolShape} {state : State} {pool slot : ℕ}

/-- An owner's context names the slot, unless the thread puts root tasks there
from outside of the pool. -/
theorem Scoped.context_of_owns (hscopes : Scoped shapes state)
    {thread : ThreadId} (howns : state.Owns thread pool slot) :
    (state.frames thread ≠ [] ∧
      state.contexts thread = ⟨slot, true, some pool⟩) ∨
    ∃ index, thread = .producer index ∧
      (state.producers index).rooting = some pool ∧ slot = 0 := by
  rcases howns with ⟨frame, hmem, rfl, rfl⟩ | hshare | hroots
  · exact .inl ⟨List.ne_nil_of_mem hmem, hscopes.framed thread frame hmem⟩
  · exact .inl hshare
  · exact .inr hroots

/-- A worker that owns a deque is in the share of its own slot. -/
theorem Scoped.worker_owns (hscopes : Scoped shapes state) {home rank : ℕ}
    (howns : state.Owns (.worker home rank) pool slot) :
    (home, rank) = (pool, slot) ∧ HasWorker shapes pool slot ∧
      ∃ mailbox, (state.slots (pool, slot)).worker.pc = .share mailbox := by
  rcases hscopes.context_of_owns howns with ⟨hopen, hcontext⟩ | ⟨_, hthread, -⟩
  · rw [hscopes.worker home rank] at hcontext
    obtain ⟨rfl, rfl⟩ : rank = slot ∧ home = pool := by simpa using hcontext
    exact ⟨rfl, hscopes.workerOpen _ _ hopen⟩
  · simp at hthread

theorem holds_of_scope {pc : ProducerPc}
    (hscope : pc.scope = some (pool, slot)) :
    pc.holds = some pool ∧ (0 < slot → pc.pending slot = none) := by
  cases pc <;> simp_all [ProducerPc.scope, ProducerPc.holds,
    ProducerPc.pending]

theorem holds_of_rooting {pc : ProducerPc}
    (hrooting : pc.rooting = some pool) : pc.holds = some pool := by
  cases pc <;> simp_all [ProducerPc.rooting, ProducerPc.holds]

/-- A producer that owns a deque is in the section of the pool, and does not
wait for the slot any more. -/
theorem Scoped.producer_owns (hscopes : Scoped shapes state) {index : ℕ}
    (howns : state.Owns (.producer index) pool slot) :
    (state.producers index).holds = some pool ∧
      (0 < slot → (state.producers index).pending slot = none) := by
  rcases hscopes.context_of_owns howns with ⟨hopen, hcontext⟩ |
    ⟨other, hthread, hrooting, rfl⟩
  · rw [hscopes.producer index] at hcontext
    obtain ⟨⟨home, rank⟩, hscope⟩ :=
      Option.ne_none_iff_exists'.1 (hscopes.producerOpen index hopen)
    obtain ⟨rfl, rfl⟩ : rank = slot ∧ home = pool := by
      simpa [hscope, scopeContext] using hcontext
    exact holds_of_scope hscope
  · obtain rfl : index = other := by simpa using hthread
    exact ⟨holds_of_rooting hrooting, fun hpos => absurd hpos (lt_irrefl 0)⟩

/-- A producer does not work on the deque of a worker in a share. -/
theorem Inv.not_both_own (hinv : Inv shapes state) {index home rank : ℕ}
    (hproducer : state.Owns (.producer index) pool slot)
    (hworker : state.Owns (.worker home rank) pool slot) : False := by
  obtain ⟨hholds, hleft⟩ := hinv.scopes.producer_owns hproducer
  obtain ⟨-, hhas, mailbox, hshare⟩ := hinv.scopes.worker_owns hworker
  obtain ⟨job, hpending, -⟩ := (hinv.own hholds hhas).share mailbox hshare
  simp [hleft hhas.1] at hpending

theorem Inv.singleOwner (hinv : Inv shapes state) : state.SingleOwner := by
  intro thread other pool slot howns hother
  cases thread with
  | producer index =>
      cases other with
      | producer second =>
          have hgate := (hinv.gate pool index).2
            (hinv.scopes.producer_owns howns).1
          have hsecond := (hinv.gate pool second).2
            (hinv.scopes.producer_owns hother).1
          rw [hgate, Option.some.injEq] at hsecond
          rw [hsecond]
      | worker home rank => exact (hinv.not_both_own howns hother).elim
  | worker home rank =>
      cases other with
      | producer index => exact (hinv.not_both_own hother howns).elim
      | worker second third =>
          have hhome := (hinv.scopes.worker_owns howns).1
          have hsecond := (hinv.scopes.worker_owns hother).1
          obtain ⟨rfl, rfl⟩ := Prod.mk.inj (hhome.trans hsecond.symm)
          rfl

end Owners

/-- In a run with one producer at a time in every dispatch section, whose shares
begin with their ranks, every deque has one owner: whatever the calls, the
pools, the guards, the late workers and the nested fork-join calls are. -/
theorem singleOwner_of_guarded {shapes : ℕ → PoolShape} {trace : List Empty}
    {state : State}
    (hrun : Run (machine shapes) OwnersGuarded start trace state) :
    state.SingleOwner :=
  (inv_of_run hrun).singleOwner

/-! ## A covered rank -/

def twoPools (_ : ℕ) : PoolShape := ⟨2, 0⟩

/-- A call of thread 0 with two blocks. -/
def forCall (pool key : ℕ) : Action :=
  .call 0 (.parallelFor ⟨pool, key, 7, 2, true, false⟩)

def producerSteps (count : ℕ) : List Action :=
  List.replicate count (.producer 0)

def workerSteps (count : ℕ) : List Action :=
  List.replicate count (.worker 0 1)

/-- From the call into the join, `steps` of them in front of slot 0. -/
def throughSlot0 (pool key steps : ℕ) : List Action :=
  forCall pool key :: producerSteps steps ++
    [.leave (.producer 0), .producer 0]

/-- The producer covers the worker's rank and returns. -/
def coverAndReturn (steps : ℕ) : List Action :=
  [.cover 0, .leave (.producer 0)] ++ producerSteps steps

/-- Two calls with one key: the worker runs its rank of the first, and is late
for the second, which the producer covers. -/
def coveredReuse : List Action :=
  throughSlot0 0 1 12 ++ workerSteps 6 ++ [.leave (.worker 0 1)] ++
    workerSteps 2 ++ producerSteps 3 ++ throughSlot0 0 1 10 ++ workerSteps 2

/-- The producer makes a fork-join call in the rank it covers. -/
theorem singleOwner_coveredReuse : ∃ trace state,
    Run (machine twoPools) OwnersGuarded start trace state ∧
    state.SingleOwner ∧
    state.frames (.producer 0) = [⟨0, 1, .push 1⟩, ⟨0, 1, .body⟩] ∧
    (state.slots (0, 1)).worker.pc =
      .claim ⟨2, false, true, false, false, false, ()⟩ := by
  obtain ⟨trace, state, run, haccept⟩ := run_of_checked (machine twoPools)
    (fun state action => decide (OwnersGuarded state action))
    (fun _ => True) (fun _ hcheck => of_decide_eq_true hcheck)
    (fun _ _ _ => trivial) start trivial
    (coveredReuse ++
      [.cover 0, .nest (.producer 0) 0 (.forkJoin 2)])
    (fun _ state =>
      decide (state.frames (.producer 0) = [⟨0, 1, .push 1⟩, ⟨0, 1, .body⟩]) &&
      decide ((state.slots (0, 1)).worker.pc =
        .claim ⟨2, false, true, false, false, false, ()⟩))
    (by decide +kernel)
  simp only [Bool.and_eq_true, decide_eq_true_eq] at haccept
  exact ⟨trace, state, run, singleOwner_of_guarded run, haccept.1, haccept.2⟩

/-! ## A share without its rank -/

/-- The worker is still late behind the covered reuse and acknowledges the next
call instead, which is covered again; it enters that word while the thread fills
the descriptor for another pool, and so begins a share of it after the claim of
a rank there. -/
def shareWithoutRank : List Action :=
  coveredReuse ++ coverAndReturn 4 ++ throughSlot0 0 2 12 ++
    workerSteps 3 ++ coverAndReturn 4 ++ workerSteps 2 ++
    throughSlot0 1 3 12 ++ coverAndReturn 5 ++ workerSteps 4 ++
    throughSlot0 0 4 12 ++ [.cover 0]

/-- Without the condition on shares, a worker and the producer that covers it
are on one deque. -/
theorem not_singleOwner_unguarded : ∃ trace state,
    Run (machine twoPools) SectionsApart start trace state ∧
      ¬ state.SingleOwner := by
  obtain ⟨trace, state, run, hcheck⟩ := run_of_checked (machine twoPools)
    (fun state action => decide (SectionsApart state action))
    (fun _ => True) (fun _ hcheck => of_decide_eq_true hcheck)
    (fun _ _ _ => trivial) start trivial shareWithoutRank
    (fun _ state =>
      decide (state.frames (.producer 0) = [⟨0, 1, .body⟩]) &&
      decide (state.frames (.worker 0 1) = [⟨0, 1, .body⟩]))
    (by decide +kernel)
  simp only [Bool.and_eq_true, decide_eq_true_eq] at hcheck
  obtain ⟨hproducer, hworker⟩ := hcheck
  refine ⟨trace, state, run, fun hsingle => ?_⟩
  have howns : state.Owns (.producer 0) 0 1 :=
    .inl ⟨⟨0, 1, .body⟩, by simp [hproducer], rfl, rfl⟩
  have hother : state.Owns (.worker 0 1) 0 1 :=
    .inl ⟨⟨0, 1, .body⟩, by simp [hworker], rfl, rfl⟩
  simpa using hsingle howns hother

/-! ## A section entered past the mutex -/

/-- A thread is in slot 0 behind the mutex when another one, which owns a guard
on the pool, gets there past it. -/
def pastTheMutex : List Action :=
  .call 1 (.parallelFor ⟨0, 1, 7, 2, true, false⟩) ::
    List.replicate 12 (.producer 1) ++
  .call 0 (.parallelFor ⟨0, 1, 7, 2, true, true⟩) :: producerSteps 12

/-- Without the condition on sections, two producers are on one deque and no
worker has moved. -/
theorem not_singleOwner_pastTheMutex : ∃ trace state,
    Run (machine twoPools) SharesGuarded start trace state ∧
      ¬ state.SingleOwner := by
  obtain ⟨trace, state, run, hcheck⟩ := run_of_checked (machine twoPools)
    (fun state action => decide (SharesGuarded state action))
    (fun _ => True) (fun _ hcheck => of_decide_eq_true hcheck)
    (fun _ _ _ => trivial) start trivial pastTheMutex
    (fun _ state =>
      decide (state.frames (.producer 0) = [⟨0, 0, .body⟩]) &&
      decide (state.frames (.producer 1) = [⟨0, 0, .body⟩]))
    (by decide +kernel)
  simp only [Bool.and_eq_true, decide_eq_true_eq] at hcheck
  obtain ⟨hguard, hholder⟩ := hcheck
  refine ⟨trace, state, run, fun hsingle => ?_⟩
  have howns : state.Owns (.producer 0) 0 0 :=
    .inl ⟨⟨0, 0, .body⟩, by simp [hguard], rfl, rfl⟩
  have hother : state.Owns (.producer 1) 0 0 :=
    .inl ⟨⟨0, 0, .body⟩, by simp [hholder], rfl, rfl⟩
  simpa using hsingle howns hother

end Citor.DequeOwners
