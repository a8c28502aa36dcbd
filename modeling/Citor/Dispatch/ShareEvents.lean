import Citor.Dispatch.JobCaches

/-!
# What a run of dispatches should show

Every event of a run is judged by the events before it: a share begins once,
with the parameters of the call that took its generation and before that call
returns; a block is run once; at the return every rank's share has begun, and
unless one was left early all blocks were run.
-/

namespace Citor.JobCaches

open Interleaving
open WorkerSlots (Mailbox)

/-! ## Judging events -/

/-- The blocks run for a generation of a pool. -/
def blocksRun (pool generation : ℕ) (trace : List Event) : List ℕ :=
  trace.filterMap fun event => match event with
    | .ran pool' generation' _ blockId _ =>
        if pool' = pool ∧ generation' = generation then some blockId else none
    | _ => none

/-- How often a rank's share began. -/
def timesEntered (pool generation rank : ℕ) (trace : List Event) : ℕ :=
  trace.countP fun event => match event with
    | .entered pool' generation' rank' _ _ =>
        pool' = pool ∧ generation' = generation ∧ rank' = rank
    | _ => false

/-- Some rank left its share early. -/
def LeftEarly (pool generation : ℕ) (trace : List Event) : Prop :=
  ∃ rank, Event.left pool generation rank ∈ trace

/-- The shares: exactly once, under the right parameters, before the return. -/
def ShareRight (program : Program) (earlier : List Event) : Event → Prop
  | .called pool generation _ =>
      ∀ call, Event.called pool generation call ∉ earlier
  | .entered pool generation rank params _ =>
      (∃ call, Event.called pool generation call ∈ earlier ∧
        params = call.params program) ∧
      rank < program.participants pool ∧
      timesEntered pool generation rank earlier = 0 ∧
      Event.returned pool generation ∉ earlier
  | .ran pool generation _ blockId params =>
      (∃ call, Event.called pool generation call ∈ earlier ∧
        params = call.params program ∧ blockId < params.blockCount) ∧
      blockId ∉ blocksRun pool generation earlier ∧
      Event.returned pool generation ∉ earlier
  | .returned pool generation =>
      (∀ rank < program.participants pool,
        timesEntered pool generation rank earlier = 1) ∧
      ∃ call, Event.called pool generation call ∈ earlier ∧
        (¬ LeftEarly pool generation earlier →
          (blocksRun pool generation earlier).Perm
            (List.range (call.params program).blockCount))
  | .read .. | .left .. => True

/-- The accesses: a worker reads what was written for the generation it
carries, and claims on its own pool. -/
def AccessRight (program : Program) (earlier : List Event) : Event → Prop
  | .read pool _ generation field value =>
      ∃ call, Event.called pool generation call ∈ earlier ∧
        value = call.value program field
  | .entered pool _ _ _ claimedOn => ∀ target, claimedOn = some target →
      target = pool
  | _ => True

/-- Every event of a trace passes. -/
def AllEvents (judge : List Event → Event → Prop) (trace : List Event) : Prop :=
  ∀ earlier event later, trace = earlier ++ event :: later →
    judge earlier event

/-! ## Reuse publications -/

/-- What a worker uses under the reuse bit is what the descriptor says. -/
structure CacheMatches (program : Program) (state : State) (desc : DescId)
    (worker : Worker) : Prop where
  cachedDesc : worker.cachedDesc = some desc
  entry : worker.cachedWorkerEntry = (state.descs desc).fields .workerEntry
  cold : worker.cachedColdCollapse =
    decide ((state.descs desc).fields .workerStateBase ≠ 0)
  primed : (worker.cache program).primed = true
  copied : ∀ field ∈ (worker.entry program).kind.copied,
    (worker.cache program).fields field = (state.descs desc).fields field

/-- While a dispatch is being published with the reuse bit, the caches of all
workers of its pool match its descriptor. -/
def ReuseSound (program : Program) (state : State) : Prop :=
  ∀ call dispatch slot, state.producer = .publish call dispatch slot →
    dispatch.reuseSafe = true →
    ∀ other, 0 < other → other < program.participants call.pool →
      CacheMatches program state (call.desc program)
        (state.slots (call.pool, other)).worker

/-! ## Conditions on steps -/

/-- An acknowledgement sets its bit on the word of its own generation, or on
one that was published with the reuse bit. -/
def AckInTime (state : State) : Action → Prop
  | .worker pool slot =>
      let contents := state.slots (pool, slot)
      ∀ mailbox, contents.worker.pc = .acknowledge mailbox →
        contents.mailbox.generation = mailbox.generation ∨
          contents.mailbox.reuse = true
  | _ => True

/-- A `parallelFor` starts to write its descriptor when no other pool has a
cold-stamped slot that was published with it and is not acknowledged. -/
def DescriptorFree (program : Program) (state : State) : Action → Prop
  | .producer => ∀ call, state.producer = .entryDrain call →
      ∀ pool < program.pools, pool ≠ call.pool →
      ∀ slot < program.participants pool,
        (state.slots (pool, slot)).coldStamped = true →
        (state.slots (pool, slot)).mailboxDesc = some (call.desc program) →
        (state.slots (pool, slot)).mailbox.acked = true
  | _ => True

/-- A `parallelReduce` that finds its parameters in a descriptor its pool
published last finds them left there by a call on the same pool. -/
def FilledHere (program : Program) (state : State) : Action → Prop
  | .call call => call.primitive program = .parallelReduce →
      (state.pools call.pool).lastPublishedDesc = some (call.desc program) →
      (∀ field ∈ call.guarded program,
        (state.descs (call.desc program)).fields field =
          call.value program field) →
      state.filledFor (call.desc program) = some call.pool
  | _ => True

/-! ## The conditions are decidable -/

/-- The word a worker is about to acknowledge. -/
def WorkerPc.acknowledged : WorkerPc → Option Mailbox
  | .acknowledge mailbox => some mailbox
  | _ => none

/-- The call whose drain the producer waits for. -/
def ProducerPc.entering : ProducerPc → Option Call
  | .entryDrain call => some call
  | _ => none

theorem acknowledged_eq_some {pc : WorkerPc} {mailbox : Mailbox} :
    pc.acknowledged = some mailbox ↔ pc = .acknowledge mailbox := by
  cases pc <;> simp [WorkerPc.acknowledged]

theorem entering_eq_some {pc : ProducerPc} {call : Call} :
    pc.entering = some call ↔ pc = .entryDrain call := by
  cases pc <;> simp [ProducerPc.entering]

instance (state : State) : DecidablePred (AckInTime state)
  | .worker pool slot =>
      let contents := state.slots (pool, slot)
      decidable_of_iff
        (∀ mailbox ∈ contents.worker.pc.acknowledged,
          contents.mailbox.generation = mailbox.generation ∨
            contents.mailbox.reuse = true)
        (forall_congr' fun _ => imp_congr_left acknowledged_eq_some)
  | .call _ | .producer | .cover | .poll _ | .producerLeaves
  | .workerLeaves _ _ => isTrue trivial

instance (program : Program) (state : State) :
    DecidablePred (DescriptorFree program state)
  | .producer =>
      decidable_of_iff
        (∀ call ∈ state.producer.entering,
          ∀ pool < program.pools, pool ≠ call.pool →
          ∀ slot < program.participants pool,
            (state.slots (pool, slot)).coldStamped = true →
            (state.slots (pool, slot)).mailboxDesc =
              some (call.desc program) →
            (state.slots (pool, slot)).mailbox.acked = true)
        (forall_congr' fun _ => imp_congr_left entering_eq_some)
  | .call _ | .cover | .poll _ | .producerLeaves | .worker _ _
  | .workerLeaves _ _ => isTrue trivial

instance (program : Program) (state : State) :
    DecidablePred (FilledHere program state)
  | .call call => inferInstanceAs (Decidable
      (call.primitive program = .parallelReduce →
        (state.pools call.pool).lastPublishedDesc =
          some (call.desc program) →
        (∀ field ∈ call.guarded program,
          (state.descs (call.desc program)).fields field =
            call.value program field) →
        state.filledFor (call.desc program) = some call.pool))
  | .producer | .cover | .poll _ | .producerLeaves | .worker _ _
  | .workerLeaves _ _ => isTrue trivial

end Citor.JobCaches
