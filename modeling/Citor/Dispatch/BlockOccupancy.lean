import Citor.Core.SharedMemory
import Citor.Dispatch.JobCaches

/-!
# Who is in which block

A block of a dispatch is run between the step that shows it and the next step
of the same thread: a worker in its share, or the producer in the share of rank
0 or of a covered rank.
-/

namespace Citor.JobCaches

open Interleaving
open BlockRunners (RankPc)
open SharedMemory (Brackets Occupancy)
open WorkerSlots (Mailbox Dispatch)

/-- A block as it is run, with the parameters that its runner has. -/
structure Piece where
  pool : ℕ
  generation : ℕ
  blockId : ℕ
  params : Params
  deriving DecidableEq, Repr

def Event.piece : Event → Option Piece
  | .ran pool generation _ blockId params =>
      some ⟨pool, generation, blockId, params⟩
  | _ => none

/-- The block that a runner at `place` is in. -/
def inBlock (piece : ℕ → Piece) : RankPc → Option Piece
  | .ran blockId => some (piece blockId)
  | _ => none

section Machine

variable (program : Program)

def Worker.inside (worker : Worker) (pool : ℕ) : Option Piece :=
  match worker.pc with
  | .body mailbox place => inBlock
      (fun blockId =>
        ⟨pool, mailbox.generation, blockId, worker.params program⟩) place
  | _ => none

/-- The block that a thread is in: a worker, or the producer. -/
def State.inside (state : State) : Option (ℕ × ℕ) → Option Piece
  | some (pool, slot) => (state.slots (pool, slot)).worker.inside program pool
  | none =>
      match state.producer with
      | .slot0 call dispatch place | .cover call dispatch _ place => inBlock
          (fun blockId => ⟨call.pool, dispatch.generation, blockId,
            state.producerParams program call⟩) place
      | _ => none

/-- The thread that takes a step. -/
def Action.party : Action → Option (ℕ × ℕ)
  | .worker pool slot | .workerLeaves pool slot => some (pool, slot)
  | .call _ | .producer | .cover | .poll _ | .producerLeaves => none

abbrev Observation := Option Event × Option Piece

/-- The job machine with the ends of the blocks. -/
def observed : Machine State Action Observation where
  step state action :=
    (step program state action).map fun (after, event) =>
      (after, some (event, state.inside program action.party))

def pieces : Brackets Observation Piece where
  opens observation := observation.1.bind Event.piece
  closes observation := observation.2

/-- What the job machine itself shows. -/
def eventsOf (trace : List Observation) : List Event :=
  trace.filterMap Prod.fst

end Machine

/-! ## A step moves one thread -/

section Steps

variable {program : Program} {state after : State} {event : Option Event}
variable {pool slot : ℕ}

/-- What the step of a worker does to the threads. -/
structure WorkerMoved (program : Program) (state after : State)
    (pool slot : ℕ) (event : Option Event) : Prop where
  producer : after.producer = state.producer
  fields : ∀ desc, (after.descs desc).fields = (state.descs desc).fields
  others : ∀ other, other ≠ (pool, slot) →
    (after.slots other).worker = (state.slots other).worker
  mover : (after.slots (pool, slot)).worker.inside program pool =
    event.bind Event.piece

theorem moved_setSlot {contents : Slot}
    (hinside : contents.worker.inside program pool = event.bind Event.piece) :
    WorkerMoved program state (state.setSlot pool slot contents) pool slot
      event where
  producer := rfl
  fields _ := rfl
  others other hother := by simp [State.setSlot, hother]
  mover := by simpa [State.setSlot] using hinside

theorem enterEntry_inside {worker refreshed : Worker} {mailbox : Mailbox}
    (hpc : worker.pc = refreshed.enterEntry program mailbox) :
    worker.inside program pool = none := by
  unfold Worker.inside
  rw [hpc, Worker.enterEntry]
  split_ifs <;> rfl

theorem placeAt_inside (contents : Slot) (mailbox : Mailbox)
    (blockId : Option ℕ) :
    (contents.placeAt mailbox (blockId.elim .returned .claimed)).worker.inside
      program pool = none := by
  cases blockId <;> rfl

theorem workerStep_moved
    (hstep : state.workerStep program pool slot = some (after, event)) :
    WorkerMoved program state after pool slot event := by
  unfold State.workerStep at hstep
  dsimp only at hstep
  split at hstep
  next hpc =>
    split_ifs at hstep
    · obtain ⟨rfl, rfl⟩ := Prod.mk.inj (Option.some.inj hstep)
      exact moved_setSlot rfl
    · obtain ⟨rfl, rfl⟩ := Prod.mk.inj (Option.some.inj hstep)
      exact ⟨rfl, fun _ => rfl, fun _ _ => rfl, by
        simp [Worker.inside, hpc]⟩
  next mailbox hpc =>
    split at hstep
    · obtain ⟨rfl, rfl⟩ := Prod.mk.inj (Option.some.inj hstep)
      exact moved_setSlot rfl
    · split_ifs at hstep <;>
        obtain ⟨rfl, rfl⟩ := Prod.mk.inj (Option.some.inj hstep)
      · exact moved_setSlot rfl
      · exact moved_setSlot (enterEntry_inside rfl)
  next mailbox desc hpc =>
    obtain ⟨rfl, rfl⟩ := Prod.mk.inj (Option.some.inj hstep)
    exact moved_setSlot rfl
  next mailbox desc workerEntry hpc =>
    obtain ⟨rfl, rfl⟩ := Prod.mk.inj (Option.some.inj hstep)
    exact moved_setSlot (enterEntry_inside rfl)
  next mailbox field remaining hpc =>
    obtain ⟨desc, -, hstep⟩ := Option.map_eq_some_iff.1 hstep
    obtain ⟨rfl, rfl⟩ := Prod.mk.inj hstep
    exact moved_setSlot rfl
  next mailbox hpc =>
    obtain ⟨rfl, rfl⟩ := Prod.mk.inj (Option.some.inj hstep)
    exact moved_setSlot rfl
  next mailbox hpc =>
    split at hstep
    · obtain ⟨rfl, rfl⟩ := Prod.mk.inj (Option.some.inj hstep)
      exact moved_setSlot rfl
    · next target htarget =>
      split_ifs at hstep <;>
        obtain ⟨rfl, rfl⟩ := Prod.mk.inj (Option.some.inj hstep)
      · refine ⟨rfl, fun _ => rfl, fun other hother => ?_, ?_⟩
        · by_cases hclaimed : other = (target, slot)
          · subst hclaimed
            simp [State.setSlot, Function.update_of_ne hother]
          · simp [State.setSlot, hother, hclaimed]
        · simp [State.setSlot, Slot.at, Worker.inside, inBlock, Event.piece]
      · exact moved_setSlot rfl
  next mailbox blockId hpc =>
    obtain ⟨rfl, rfl⟩ := Prod.mk.inj (Option.some.inj hstep)
    exact moved_setSlot rfl
  next => simp at hstep
  next mailbox place hclaimed hreturned hpc =>
    obtain ⟨desc, -, hstep⟩ := Option.map_eq_some_iff.1 hstep
    obtain ⟨rfl, rfl⟩ := Prod.mk.inj hstep
    refine ⟨rfl, fun other => ?_, fun other hother => ?_, ?_⟩
    · by_cases hsame : other = desc <;>
        simp [State.setSlot, State.setDesc, hsame]
    · simp [State.setSlot, State.setDesc, hother]
    · simpa [State.setSlot] using placeAt_inside _ _ _
  next mailbox coldCollapseDispatch hpc =>
    split at hstep <;>
      obtain ⟨rfl, rfl⟩ := Prod.mk.inj (Option.some.inj hstep) <;>
      exact moved_setSlot rfl
  next mailbox hpc =>
    obtain ⟨rfl, rfl⟩ := Prod.mk.inj (Option.some.inj hstep)
    exact moved_setSlot rfl

/-- What a step outside the workers does to the threads. -/
structure ProducerMoved (program : Program) (state after : State)
    (event : Option Event) : Prop where
  workers : ∀ key, (after.slots key).worker = (state.slots key).worker
  mover : after.inside program none = event.bind Event.piece

theorem inside_at {pc : ProducerPc}
    (hpc : (state.at pc).inside program none = none) :
    ProducerMoved program state (state.at pc) none :=
  ⟨fun _ => rfl, hpc⟩

theorem inside_slot {contents : Slot} {pc : ProducerPc}
    (hworker : contents.worker = (state.slots (pool, slot)).worker)
    (hpc : ((state.setSlot pool slot contents).at pc).inside program none =
      event.bind Event.piece) :
    ProducerMoved program state ((state.setSlot pool slot contents).at pc)
      event where
  workers key := by
    by_cases hkey : key = (pool, slot)
    · simpa [State.at, State.setSlot, hkey] using hworker
    · simp [State.at, State.setSlot, hkey]
  mover := hpc

theorem publishFrom_inside (call : Call) (dispatch : Dispatch) (next : ℕ) :
    (state.at (call.publishFrom program dispatch next)).inside program none =
      none := by
  unfold Call.publishFrom
  split_ifs <;> rfl

/-- A runner on the producer. -/
theorem runRank_inside {call : Call} {generation rank : ℕ}
    {place next : RankPc}
    (hrun : state.runRank program call generation rank place =
      some (after, next, event)) :
    after.slots = state.slots ∧ inBlock (fun blockId =>
      ⟨call.pool, generation, blockId, after.producerParams program call⟩)
        next = event.bind Event.piece := by
  unfold State.runRank at hrun
  split at hrun
  · simp at hrun
  · obtain ⟨rfl, hout⟩ := Prod.mk.inj (Option.some.inj hrun)
    obtain ⟨rfl, rfl⟩ := Prod.mk.inj hout
    exact ⟨rfl, rfl⟩
  · obtain ⟨rfl, hout⟩ := Prod.mk.inj (Option.some.inj hrun)
    obtain ⟨rfl, rfl⟩ := Prod.mk.inj hout
    refine ⟨rfl, ?_⟩
    generalize (EntryKind.nextBlockId _ _ _ _ _ _).1 = claimed
    cases claimed <;> rfl

theorem producerStep_moved
    (hstep : state.producerStep program = some (after, event)) :
    ProducerMoved program state after event := by
  unfold State.producerStep at hstep
  split at hstep
  next => simp at hstep
  next call hpc =>
    split_ifs at hstep
    obtain ⟨rfl, rfl⟩ := Prod.mk.inj (Option.some.inj hstep)
    exact inside_at rfl
  next call field remaining keyMatches hpc =>
    dsimp only at hstep
    split_ifs at hstep <;>
      obtain ⟨rfl, rfl⟩ := Prod.mk.inj (Option.some.inj hstep) <;>
      exact ⟨fun _ => rfl, rfl⟩
  next call keyMatches hpc =>
    dsimp only at hstep
    split at hstep
    · split_ifs at hstep <;>
        obtain ⟨rfl, rfl⟩ := Prod.mk.inj (Option.some.inj hstep) <;>
        exact inside_at rfl
    · obtain ⟨rfl, rfl⟩ := Prod.mk.inj (Option.some.inj hstep)
      exact inside_at rfl
  next call field remaining keyMatches hpc =>
    obtain ⟨rfl, rfl⟩ := Prod.mk.inj (Option.some.inj hstep)
    exact ⟨fun _ => rfl, rfl⟩
  next call keyMatches hpc =>
    obtain ⟨rfl, rfl⟩ := Prod.mk.inj (Option.some.inj hstep)
    exact inside_at rfl
  next call keyMatches hpc =>
    dsimp only at hstep
    split_ifs at hstep <;>
      obtain ⟨rfl, rfl⟩ := Prod.mk.inj (Option.some.inj hstep) <;>
      exact ⟨fun _ => rfl, rfl⟩
  next call reuseHint hpc =>
    obtain ⟨rfl, rfl⟩ := Prod.mk.inj (Option.some.inj hstep)
    exact ⟨fun _ => rfl, rfl⟩
  next call dispatch hpc =>
    split_ifs at hstep
    obtain ⟨rfl, rfl⟩ := Prod.mk.inj (Option.some.inj hstep)
    exact inside_at (publishFrom_inside _ _ _)
  next call dispatch slot hpc =>
    obtain ⟨rfl, rfl⟩ := Prod.mk.inj (Option.some.inj hstep)
    exact inside_slot rfl rfl
  next call dispatch slot hpc =>
    obtain ⟨rfl, rfl⟩ := Prod.mk.inj (Option.some.inj hstep)
    exact inside_slot rfl (publishFrom_inside _ _ _)
  next call dispatch hpc =>
    obtain ⟨rfl, rfl⟩ := Prod.mk.inj (Option.some.inj hstep)
    exact ⟨fun _ => rfl, rfl⟩
  next call dispatch hpc =>
    obtain ⟨rfl, rfl⟩ := Prod.mk.inj (Option.some.inj hstep)
    exact ⟨fun _ => rfl, rfl⟩
  next call dispatch hpc =>
    obtain ⟨rfl, rfl⟩ := Prod.mk.inj (Option.some.inj hstep)
    exact inside_at rfl
  next call dispatch place hreturned hpc =>
    obtain ⟨⟨middle, place', shown⟩, hrun, hout⟩ :=
      Option.map_eq_some_iff.1 hstep
    obtain ⟨rfl, rfl⟩ := Prod.mk.inj hout
    obtain ⟨hslots, hinside⟩ := runRank_inside hrun
    exact ⟨fun key => congrArg Slot.worker (congrFun hslots key), hinside⟩
  next call dispatch slot hpc =>
    split_ifs at hstep <;>
      obtain ⟨rfl, rfl⟩ := Prod.mk.inj (Option.some.inj hstep) <;>
      exact ⟨fun _ => rfl, rfl⟩
  next call dispatch slot hpc =>
    obtain ⟨rfl, rfl⟩ := Prod.mk.inj (Option.some.inj hstep)
    exact inside_at rfl
  next call dispatch slot place hreturned hpc =>
    obtain ⟨⟨middle, place', shown⟩, hrun, hout⟩ :=
      Option.map_eq_some_iff.1 hstep
    obtain ⟨rfl, rfl⟩ := Prod.mk.inj hout
    obtain ⟨hslots, hinside⟩ := runRank_inside hrun
    exact ⟨fun key => congrArg Slot.worker (congrFun hslots key), hinside⟩
  next call dispatch slot hpc =>
    dsimp only at hstep
    split_ifs at hstep <;>
      obtain ⟨rfl, rfl⟩ := Prod.mk.inj (Option.some.inj hstep)
    · exact inside_slot rfl rfl
    · exact inside_slot rfl rfl
    · exact inside_at rfl
  next call dispatch slot hpc =>
    obtain ⟨rfl, rfl⟩ := Prod.mk.inj (Option.some.inj hstep)
    exact inside_slot rfl rfl

theorem pollStep_moved
    (hstep : state.pollStep program slot = some (after, event)) :
    ProducerMoved program state after event := by
  obtain ⟨pool, hdrains, hstep⟩ := Option.bind_eq_some_iff.1 hstep
  dsimp only at hstep
  split_ifs at hstep
  obtain ⟨rfl, rfl⟩ := Prod.mk.inj (Option.some.inj hstep)
  refine ⟨fun key => ?_, ?_⟩
  · by_cases hkey : key = (pool, slot) <;> simp [State.setSlot, hkey]
  · cases hpc : state.producer <;>
      simp [hpc, ProducerPc.drains] at hdrains <;>
      simp [State.inside, State.setSlot, hpc]

theorem producerLeaves_moved
    (hstep : state.producerLeaves program = some (after, event)) :
    ProducerMoved program state after event := by
  unfold State.producerLeaves at hstep
  split at hstep
  · split_ifs at hstep
    obtain ⟨rfl, rfl⟩ := Prod.mk.inj (Option.some.inj hstep)
    exact ⟨fun _ => rfl, rfl⟩
  · split_ifs at hstep
    obtain ⟨rfl, rfl⟩ := Prod.mk.inj (Option.some.inj hstep)
    exact ⟨fun _ => rfl, rfl⟩
  · simp at hstep

theorem coverStep_moved
    (hstep : state.coverStep program = some (after, event)) :
    ProducerMoved program state after event := by
  unfold State.coverStep at hstep
  split at hstep
  · dsimp only at hstep
    split_ifs at hstep
    obtain ⟨rfl, rfl⟩ := Prod.mk.inj (Option.some.inj hstep)
    exact inside_slot rfl rfl
  · simp at hstep

theorem workerLeaves_moved
    (hstep : state.workerLeaves program pool slot = some (after, event)) :
    WorkerMoved program state after pool slot event := by
  unfold State.workerLeaves at hstep
  dsimp only at hstep
  split at hstep
  · split_ifs at hstep
    obtain ⟨rfl, rfl⟩ := Prod.mk.inj (Option.some.inj hstep)
    exact moved_setSlot rfl
  · simp at hstep

/-- What one step does, for the thread that takes it and for the others. -/
structure Moved (program : Program) (state after : State) (action : Action)
    (event : Option Event) : Prop where
  mover : after.inside program action.party = event.bind Event.piece
  others : ∀ other, other ≠ action.party →
    after.inside program other = state.inside program other

theorem ProducerMoved.moved {action : Action}
    (hmoved : ProducerMoved program state after event)
    (hparty : action.party = none) :
    Moved program state after action event where
  mover := by
    rw [hparty]
    exact hmoved.mover
  others other hother := by
    cases other with
    | none => exact absurd hparty.symm hother
    | some key =>
        exact congrArg (Worker.inside program · key.1) (hmoved.workers key)

theorem WorkerMoved.moved {action : Action}
    (hmoved : WorkerMoved program state after pool slot event)
    (hparty : action.party = some (pool, slot)) :
    Moved program state after action event where
  mover := by
    rw [hparty]
    exact hmoved.mover
  others other hother := by
    cases other with
    | none =>
        have hparams : ∀ call, after.producerParams program call =
            state.producerParams program call := by
          intro call
          rw [State.producerParams, hmoved.fields]
          rfl
        simp only [State.inside, hmoved.producer, hparams]
    | some key =>
        have hkey : key ≠ (pool, slot) := by
          rintro rfl
          exact hother hparty.symm
        exact congrArg (Worker.inside program · key.1) (hmoved.others key hkey)

theorem step_moved {action : Action}
    (hstep : step program state action = some (after, event)) :
    Moved program state after action event := by
  cases action with
  | call call =>
      apply ProducerMoved.moved _ rfl
      simp only [step] at hstep
      split_ifs at hstep
      obtain ⟨rfl, rfl⟩ := Prod.mk.inj (Option.some.inj hstep)
      apply inside_at
      unfold Call.start
      cases call.primitive program <;> rfl
  | producer => exact (producerStep_moved hstep).moved rfl
  | cover => exact (coverStep_moved hstep).moved rfl
  | poll slot => exact (pollStep_moved hstep).moved rfl
  | producerLeaves => exact (producerLeaves_moved hstep).moved rfl
  | worker pool slot =>
      simp only [step] at hstep
      split_ifs at hstep
      exact (workerStep_moved hstep).moved rfl
  | workerLeaves pool slot =>
      simp only [step] at hstep
      split_ifs at hstep
      exact (workerLeaves_moved hstep).moved rfl

/-- The threads are the parties in the blocks. -/
def occupancy (program : Program) :
    Occupancy (observed program) pieces (Option (ℕ × ℕ)) where
  party := Action.party
  inside := State.inside program
  mover hstep := by
    obtain ⟨⟨after, event⟩, hbase, hout⟩ := Option.map_eq_some_iff.1 hstep
    obtain ⟨rfl, rfl⟩ := Prod.mk.inj hout
    exact (step_moved hbase).mover
  others hstep party hparty := by
    obtain ⟨⟨after, event⟩, hbase, hout⟩ := Option.map_eq_some_iff.1 hstep
    obtain ⟨rfl, rfl⟩ := Prod.mk.inj hout
    exact (step_moved hbase).others party hparty
  closes hstep := by
    obtain ⟨⟨after, event⟩, hbase, hout⟩ := Option.map_eq_some_iff.1 hstep
    obtain ⟨rfl, rfl⟩ := Prod.mk.inj hout
    rfl

end Steps

end Citor.JobCaches
