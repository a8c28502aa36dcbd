import Citor.Dispatch.JobRuns

/-!
# One thread's descriptor on several pools

All `parallelFor` calls of a thread share one descriptor, whichever pool they
are made on, and a call drains the acknowledgements of its own pool only.  A
late worker of another pool may read the descriptor while, or after, it is
written for the next call.  Where no other pool has such a worker, what a
worker reads was written for the generation it carries.
-/

namespace Citor.JobCaches

open Interleaving

/-- Calls of `parallelFor` by one thread, on any pools. -/
def ForBy (program : Program) (thread : ℕ) : Action → Prop
  | .call call =>
      call.thread = thread ∧ call.primitive program = .parallelFor
  | .producer | .cover | .poll _ | .producerLeaves | .worker _ _
  | .workerLeaves _ _ => True

instance (program : Program) (thread : ℕ) :
    DecidablePred (ForBy program thread)
  | .call _ => inferInstanceAs (Decidable (_ ∧ _))
  | .producer | .cover | .poll _ | .producerLeaves | .worker _ _
  | .workerLeaves _ _ => isTrue trivial

/-- With acknowledgements in time and the descriptor free at every call, a
worker reads what was written for its generation, claims on its own pool, and
no block is skipped or run twice. -/
theorem eventsRight_of_descriptorFree {program : Program} {thread : ℕ}
    {trace : List Event} {state : State}
    (run : Run (machine program)
      (fun state action => ForBy program thread action ∧
        AckInTime state action ∧ DescriptorFree program state action)
      start trace state) :
    AllEvents (EventRight program) trace := by
  refine events_of_run ?_ run
  rintro ranks trace state action - ⟨hfor, hack, hfree⟩
  refine ⟨hack, hfree, filledHere_of_parallelFor ?_⟩
  rintro call rfl
  exact hfor.2

/-- Two pools of two participants each, and static bodies that do not throw. -/
def bothPools : Program where
  entries := fun entry => ⟨.typed .staticUniform, 4, 0, false, true, entry⟩
  pools := 2
  participants := fun _ => 2
  participants_pos := fun _ => Nat.zero_lt_two

/-- Two blocks on a pool; the body is an lvalue at some address. -/
def callOn (pool fnPtr : ℕ) : Call :=
  ⟨0, pool, 1, fnPtr, 0, 8, 0, 0, 0, true, false⟩

/-- The worker of the first pool is covered, but acknowledges before the second
pool is called; the third call is on the first pool again. -/
def acknowledgedFirst : List Action :=
  List.flatten
    [[.call (callOn 0 100)], List.replicate 24 .producer, [.cover],
      List.replicate 7 .producer, List.replicate 15 (.worker 0 1),
      [.call (callOn 1 200)], List.replicate 24 .producer,
      List.replicate 17 (.worker 1 1), List.replicate 2 .producer,
      [.call (callOn 0 300), .poll 1], List.replicate 24 .producer,
      List.replicate 17 (.worker 0 1), List.replicate 2 .producer]

theorem eventsRight_acknowledgedFirst :
    ∃ trace state, Run (machine bothPools)
      (fun state action => ForBy bothPools 0 action ∧
        AckInTime state action ∧ DescriptorFree bothPools state action)
      start trace state ∧
      Event.returned 1 1 ∈ trace ∧ Event.returned 0 2 ∈ trace ∧
      AllEvents (EventRight bothPools) trace := by
  obtain ⟨trace, state, run, haccept⟩ := run_of_checked (machine bothPools)
    (fun state action => decide (ForBy bothPools 0 action ∧
      AckInTime state action ∧ DescriptorFree bothPools state action))
    (fun _ => True) (fun _ hcheck => of_decide_eq_true hcheck)
    (fun _ _ _ => trivial) start trivial acknowledgedFirst
    (fun trace _ => decide (Event.returned 1 1 ∈ trace ∧
      Event.returned 0 2 ∈ trace)) (by decide +kernel)
  obtain ⟨hsecond, hfirst⟩ := of_decide_eq_true haccept
  exact ⟨trace, state, run, hsecond, hfirst,
    eventsRight_of_descriptorFree run⟩

/-- Some worker reads what no call of the generation it carries wants in the
field. -/
def misread (program : Program) (trace : List Event) : Bool :=
  trace.any fun event => match event with
    | .read pool _ generation field value => trace.all fun other =>
        match other with
        | .called pool' generation' call =>
            !decide (pool' = pool ∧ generation' = generation ∧
              value = call.value program field)
        | _ => true
    | _ => false

theorem not_eventRight_of_misread {program : Program} {trace : List Event}
    (hmisread : misread program trace = true) :
    ¬ AllEvents (EventRight program) trace := by
  intro hright
  obtain ⟨event, hmem, hevent⟩ := List.any_eq_true.1 hmisread
  cases event with
  | read pool slot generation field value =>
      obtain ⟨earlier, later, hsplit⟩ := List.append_of_mem hmem
      obtain ⟨call, hcalled, hvalue⟩ := (hright _ _ _ hsplit).2
      have hall := List.all_eq_true.1 hevent
        (.called pool generation call)
        (hsplit ▸ List.mem_append_left _ hcalled)
      simp [hvalue] at hall
  | _ => simp at hevent

/-- The worker of the first pool has not started when it is covered; the second
pool is called, and the worker reads the second pool's base. -/
def readsSecondPool : List Action :=
  List.flatten
    [[.call (callOn 0 100)], List.replicate 24 .producer, [.cover],
      List.replicate 7 .producer, [.call (callOn 1 200)],
      List.replicate 24 .producer, List.replicate 4 (.worker 0 1)]

/-- A worker of one pool reads a field written for a call on the other. -/
theorem not_eventsRight_readsSecondPool :
    ¬ ∀ (program : Program) (thread : ℕ), program.pools = 2 →
      ∀ trace state, Run (machine program)
        (fun _ action => ForBy program thread action) start trace state →
      AllEvents (EventRight program) trace := by
  intro hclaim
  obtain ⟨trace, state, run, haccept⟩ := run_of_checked (machine bothPools)
    (fun _ action => decide (ForBy bothPools 0 action)) (fun _ => True)
    (fun _ hcheck => of_decide_eq_true hcheck)
    (fun _ _ _ => trivial) start trivial readsSecondPool
    (fun trace _ => misread bothPools trace) (by decide +kernel)
  exact not_eventRight_of_misread haccept
    (hclaim bothPools 0 rfl trace state run)

end Citor.JobCaches
