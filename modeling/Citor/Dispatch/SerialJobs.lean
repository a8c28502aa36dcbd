import Citor.Dispatch.JobRuns

/-!
# One pool, one call after the other

A thread issues `parallelFor` calls on one pool.  A worker that is late for a
reuse publication is covered but not put into the cold-stamped mask, so nobody
waits for its acknowledgement; it may set its bit on the word of a later full
publication, and that publication's own acknowledgement is then taken for
granted.  As long as acknowledgements come in time, every rank of every call is
run exactly once and for its own call.
-/

namespace Citor.JobCaches

open Interleaving

/-- Calls of `parallelFor` by one thread, whose shares run to their ends. -/
def PlainFor (program : Program) (thread : ℕ) : Action → Prop
  | .call call =>
      call.thread = thread ∧ call.primitive program = .parallelFor
  | .producerLeaves | .workerLeaves _ _ => False
  | .producer | .cover | .poll _ | .worker _ _ => True

instance (program : Program) (thread : ℕ) :
    DecidablePred (PlainFor program thread)
  | .call _ => inferInstanceAs (Decidable (_ ∧ _))
  | .producerLeaves | .workerLeaves _ _ => isFalse id
  | .producer | .cover | .poll _ | .worker _ _ => isTrue trivial

/-- Shares and blocks are run under the call that took their generation, once
and before it returns; and when it returns all of them have been. -/
structure RunsOnce (program : Program) (trace : List Event) : Prop where
  events : AllEvents (ShareRight program) trace
  complete : ∀ earlier pool generation later,
    trace = earlier ++ .returned pool generation :: later →
    (∀ rank < program.participants pool,
      timesEntered pool generation rank earlier = 1) ∧
    ∃ call, Event.called pool generation call ∈ earlier ∧
      (blocksRun pool generation earlier).Perm
        (List.range (call.params program).blockCount)

section Serial

variable {program : Program} {trace : List Event} {state : State}

/-- On one pool every descriptor is free behind the pool's drain. -/
theorem descriptorFree_of_onePool (hpools : program.pools = 1)
    {ranks : ℕ → Option BlockRunners.RankPc}
    (hinv : Inv program ranks trace state) (action : Action) :
    DescriptorFree program state action := by
  cases action with
  | producer =>
      intro call hpc pool hpool hother
      have := (hinv.admissible hpc).1
      omega
  | _ => trivial

theorem PlainFor.careful (hpools : program.pools = 1) {thread : ℕ}
    {ranks : ℕ → Option BlockRunners.RankPc}
    (hinv : Inv program ranks trace state) {action : Action}
    (hplain : PlainFor program thread action)
    (hack : AckInTime state action) : Careful program state action := by
  refine ⟨hack, descriptorFree_of_onePool hpools hinv action,
    filledHere_of_parallelFor ?_⟩
  rintro call rfl
  exact hplain.2

theorem PlainFor.stays {thread : ℕ} {action : Action}
    (hplain : PlainFor program thread action) :
    action ≠ .producerLeaves ∧
      ∀ pool slot, action ≠ .workerLeaves pool slot := by
  cases action <;> simp [PlainFor] at hplain ⊢

/-- On one pool, with acknowledgements in time, every rank of every call is run
exactly once. -/
theorem runsOnce_of_ackInTime (hpools : program.pools = 1) {thread : ℕ}
    (run : Run (machine program)
      (fun state action => PlainFor program thread action ∧
        AckInTime state action) start trace state) :
    RunsOnce program trace := by
  have hevents : AllEvents (EventRight program) trace :=
    events_of_run (fun hinv hallowed =>
      hallowed.1.careful hpools hinv hallowed.2) run
  have hshares : AllEvents (ShareRight program) trace :=
    hevents.mono fun _ _ hright => hright.1
  refine ⟨hshares, fun earlier pool generation later hsplit => ?_⟩
  obtain ⟨hentered, call, hcalled, hblocks⟩ := hshares _ _ _ hsplit
  refine ⟨hentered, call, hcalled, hblocks fun hleft => ?_⟩
  refine not_leftEarly_of_run (fun _ _ hallowed => hallowed.1.stays) run pool
    generation ?_
  obtain ⟨rank, hmem⟩ := hleft
  exact ⟨rank, hsplit ▸ List.mem_append_left _ hmem⟩

end Serial

/-! ## Two participants -/

/-- One pool of two participants, and static bodies that do not throw. -/
def onePool : Program where
  entries := fun entry => ⟨.typed .staticUniform, 4, 0, false, true, entry⟩
  pools := 1
  participants := fun _ => 2
  participants_pos := fun _ => Nat.zero_lt_two

/-- Two blocks; the body is an lvalue at some address. -/
def bodyCall (fnPtr : ℕ) : Call :=
  ⟨0, 0, 1, fnPtr, 0, 8, 0, 0, 0, true, false⟩

/-- Two calls with different bodies, the worker running its rank of each. -/
def twoBodies : List Action :=
  List.flatten
    [[.call (bodyCall 100)], List.replicate 24 .producer,
      List.replicate 17 (.worker 0 1), List.replicate 2 .producer,
      [.call (bodyCall 200)], List.replicate 24 .producer,
      List.replicate 17 (.worker 0 1), List.replicate 2 .producer]

theorem runsOnce_twoBodies :
    ∃ trace state, Run (machine onePool)
      (fun state action => PlainFor onePool 0 action ∧
        AckInTime state action) start trace state ∧
      Event.returned 0 2 ∈ trace ∧ RunsOnce onePool trace := by
  obtain ⟨trace, state, run, haccept⟩ := run_of_checked (machine onePool)
    (fun state action => decide
      (PlainFor onePool 0 action ∧ AckInTime state action)) (fun _ => True)
    (fun _ hcheck => of_decide_eq_true hcheck)
    (fun _ _ _ => trivial) start trivial twoBodies
    (fun trace _ => trace.contains (.returned 0 2)) (by decide +kernel)
  exact ⟨trace, state, run, by simpa using haccept,
    runsOnce_of_ackInTime rfl run⟩

/-! ## A late acknowledgement -/

/-- Some share begins with parameters of no call of its generation. -/
def misled (program : Program) (trace : List Event) : Bool :=
  trace.any fun event => match event with
    | .entered pool generation _ params _ => trace.all fun other =>
        match other with
        | .called pool' generation' call =>
            !decide (pool' = pool ∧ generation' = generation ∧
              params = call.params program)
        | _ => true
    | _ => false

theorem not_shareRight_of_misled {program : Program} {trace : List Event}
    (hmisled : misled program trace = true) :
    ¬ AllEvents (ShareRight program) trace := by
  intro hright
  obtain ⟨event, hmem, hevent⟩ := List.any_eq_true.1 hmisled
  cases event with
  | entered pool generation rank params claimedOn =>
      obtain ⟨earlier, later, hsplit⟩ := List.append_of_mem hmem
      obtain ⟨⟨call, hcalled, hparams⟩, -⟩ := hright _ _ _ hsplit
      have hall := List.all_eq_true.1 hevent
        (.called pool generation call)
        (hsplit ▸ List.mem_append_left _ hcalled)
      simp [hparams] at hall
  | _ => simp at hevent

/-- The worker takes the first body up; the same body is published again with
the reuse bit, and the worker is covered between the load of its word and its
claim.  The second body is published and the worker covered once more, before
it has read it.  Now it loses its old claim and acknowledges: the next call
finds the bit set and publishes with the reuse bit, and the worker runs its
share with the first body. -/
def lateAcknowledgement : List Action :=
  List.flatten
    [[.call (bodyCall 100)], List.replicate 24 .producer,
      List.replicate 17 (.worker 0 1), List.replicate 2 .producer,
      [.call (bodyCall 100)], List.replicate 19 .producer,
      [.worker 0 1, .cover], List.replicate 6 .producer,
      [.call (bodyCall 200)], List.replicate 24 .producer, [.cover],
      List.replicate 7 .producer, List.replicate 4 (.worker 0 1),
      [.call (bodyCall 200), .poll 1], List.replicate 19 .producer,
      List.replicate 7 (.worker 0 1)]

/-- A worker runs a share of the fourth call with the body of the first. -/
theorem not_runsOnce_lateAcknowledgement :
    ¬ ∀ (program : Program) (thread : ℕ), program.pools = 1 →
      (∀ pool, 2 ≤ program.participants pool ∧
        program.participants pool ≤ 64) →
      ∀ trace state, Run (machine program)
        (fun _ action => PlainFor program thread action) start trace state →
      RunsOnce program trace := by
  intro hclaim
  obtain ⟨trace, state, run, haccept⟩ := run_of_checked (machine onePool)
    (fun _ action => decide (PlainFor onePool 0 action)) (fun _ => True)
    (fun _ hcheck => of_decide_eq_true hcheck)
    (fun _ _ _ => trivial) start trivial lateAcknowledgement
    (fun trace _ => misled onePool trace) (by decide +kernel)
  refine not_shareRight_of_misled haccept
    (hclaim onePool 0 rfl (fun _ => ?_) trace state run).events
  simp [onePool]

end Citor.JobCaches
