import Citor.Dispatch.JobJoin

/-!
# Runs of the job machine

A run keeps the invariant as long as acknowledgements come in time, a
`parallelFor` finds its descriptor free, and a reducer that compares equal was
filled for its pool.  In such a run every event is right, and a publication
with the reuse bit finds the caches of its workers equal to its descriptor.
-/

namespace Citor.JobCaches

open Interleaving
open WorkerSlots (MailboxWord)

/-- The three conditions on a step. -/
def Careful (program : Program) (state : State) (action : Action) : Prop :=
  AckInTime state action ∧ DescriptorFree program state action ∧
    FilledHere program state action

/-- What is right of an event. -/
def EventRight (program : Program) (earlier : List Event) (event : Event) :
    Prop :=
  ShareRight program earlier event ∧ AccessRight program earlier event

section Runs

variable {program : Program} {ranks : ℕ → Option BlockRunners.RankPc}
variable {trace : List Event} {state after : State}

theorem slotInv_fresh (program : Program) (pool : ℕ) :
    SlotInv program pool ⟨0, .none pool⟩ .closed none .fresh := by
  have hfinished : Slot.fresh.standing = .finished := rfl
  refine ⟨rfl, fun _ => rfl, ?_, le_rfl, ⟨le_rfl, fun _ => rfl⟩, ?_, trivial, ?_,
    ?_, ?_, fun _ => ⟨?_, fun _ => hfinished, .inr rfl⟩, ?_, ?_, ?_, ?_, ?_, ?_,
    ?_⟩
  all_goals simp [Slot.fresh, WorkerSlots.Slot.fresh, MailboxWord.zero,
    Worker.fresh, WorkerSlots.Worker.fresh, WorkerPc.carried, Slot.standing,
    Standing.Before, Standing.Behind]

/-- Fresh pools and descriptors. -/
theorem inv_start (program : Program) :
    Inv program (fun _ => none) [] start := by
  have hjob : ∀ pool slot, start.job pool slot = ⟨0, .none pool⟩ :=
    fun pool slot => job_of_pool (pool_of_inactive rfl pool)
  have hturn : ∀ pool slot, start.producer.turn pool slot = .closed :=
    fun pool slot => turn_of_pool (pool_of_inactive rfl pool)
  have hinactive : ∀ {call dispatch},
      start.producer.active ≠ some (call, dispatch) := by
    simp [start, ProducerPc.active]
  refine ⟨fun pool slot _ => ?_, ⟨fun _ _ _ => le_rfl, fun _ _ _ _ => rfl,
    fun _ _ _ hopen => absurd hopen hinactive⟩, ?_, fun _ _ => .inl rfl, ?_,
    trivial, fun _ _ hopen => absurd hopen hinactive, trivial,
    fun _ _ hopen => absurd hopen hinactive, ⟨by simp, ?_⟩⟩
  · rw [hjob, hturn]
    exact slotInv_fresh program pool
  · rintro pool slot - ⟨-, hbehind⟩
    have hfinished : (start.slots (pool, slot)).standing = .finished := rfl
    simp [hfinished, Standing.Behind] at hbehind
  · intro pool desc hlast
    simp [start] at hlast
  · intro pool hpos
    simp [start] at hpos

/-- Every careful step keeps the invariant, and shows what is right. -/
theorem Inv.step (hinv : Inv program ranks trace state) {action : Action}
    (hcareful : Careful program state action) {event : Option Event}
    (hstep : (machine program).step state action = some (after, event)) :
    Kept program trace after event := by
  obtain ⟨hack, hfree, hhere⟩ := hcareful
  cases action with
  | call call =>
      simp only [machine, JobCaches.step] at hstep
      split at hstep
      next hcall =>
        simp only [Option.some.injEq, Prod.mk.injEq] at hstep
        obtain ⟨rfl, rfl⟩ := hstep
        exact hinv.step_call hcall.1 hcall.2 hhere
      next => simp at hstep
  | producer => exact hinv.producerStep hfree hstep
  | cover => exact hinv.step_cover hstep
  | poll slot => exact hinv.step_poll hstep
  | producerLeaves => exact hinv.step_producerLeaves hstep
  | worker pool slot =>
      simp only [machine, JobCaches.step] at hstep
      split at hstep
      next hworker => exact hinv.workerStep hworker hack hstep
      next => simp at hstep
  | workerLeaves pool slot =>
      simp only [machine, JobCaches.step] at hstep
      split at hstep
      next hworker => exact hinv.step_leaves hworker hstep
      next => simp at hstep

/-- A run keeps the invariant, where it makes the steps careful. -/
theorem inv_of_run {allowed : State → Action → Prop}
    (hcareful : ∀ {ranks trace state action}, Inv program ranks trace state →
      allowed state action → Careful program state action)
    (run : Run (machine program) allowed start trace state) :
    ∃ ranks, Inv program ranks trace state := by
  refine run.invariant (fun trace state => ∃ ranks, Inv program ranks trace
    state) ⟨_, inv_start program⟩ ?_
  rintro trace before action after event ⟨ranks, hinv⟩ hallowed hstep
  exact (hinv.step (hcareful hinv hallowed) hstep).1

/-- In such a run every event is right. -/
theorem events_of_run {allowed : State → Action → Prop}
    (hcareful : ∀ {ranks trace state action}, Inv program ranks trace state →
      allowed state action → Careful program state action)
    (run : Run (machine program) allowed start trace state) :
    AllEvents (EventRight program) trace := by
  refine run.at_event (fun trace state => ∃ ranks, Inv program ranks trace
    state) _ (fun run => inv_of_run hcareful run) ?_
  rintro trace before action after event ⟨ranks, hinv⟩ hallowed hstep
  exact (hinv.step (hcareful hinv hallowed) hstep).2 event rfl

theorem AllEvents.mono {judge wider : List Event → Event → Prop}
    (hwider : ∀ earlier event, judge earlier event → wider earlier event)
    (hall : AllEvents judge trace) : AllEvents wider trace :=
  fun earlier event later heq => hwider _ _ (hall earlier event later heq)

/-- What a prepared `parallelFor` is asked to do, one of the pools can do. -/
theorem Inv.admissible (hinv : Inv program ranks trace state) {call : Call}
    (hpc : state.producer = .entryDrain call) : call.Admissible program := by
  have hok := hinv.prepares
  rw [hpc] at hok
  exact hok.1

/-- A run of `parallelFor` calls only never reuses a reducer's descriptor. -/
theorem filledHere_of_parallelFor {action : Action}
    (hfor : ∀ call, action = .call call →
      call.primitive program = .parallelFor) :
    FilledHere program state action := by
  cases action with
  | call call =>
      intro hreduce
      simp [hfor call rfl] at hreduce
  | _ => trivial

/-- A trace without misplaced calls tells which call a generation belongs
to. -/
theorem AllEvents.called_unique
    (hright : AllEvents (EventRight program) trace) {pool generation : ℕ}
    {left right : Call} (hleft : Event.called pool generation left ∈ trace)
    (hright' : Event.called pool generation right ∈ trace) : left = right := by
  obtain ⟨front, back, hsplit⟩ := List.append_of_mem hleft
  rw [hsplit] at hright'
  rcases List.mem_append.1 hright' with hfront | hrest
  · exact absurd hfront ((hright front _ back hsplit).1 right)
  · rcases List.mem_cons.1 hrest with heq | hback
    · exact ((Event.called.injEq ..).mp heq).2.2.symm
    · obtain ⟨middle, rest, hback⟩ := List.append_of_mem hback
      have hsplit' : trace = (front ++ .called pool generation left :: middle) ++
          .called pool generation right :: rest := by
        rw [hsplit, hback]
        simp
      exact absurd (List.mem_append_right _ (List.mem_cons_self ..))
        ((hright _ _ rest hsplit').1 left)

/-! ## Leaving early -/

theorem workerStep_not_left {pool slot : ℕ} {event : Event}
    (hstep : state.workerStep program pool slot = some (after, some event))
    (pool' generation rank : ℕ) : event ≠ .left pool' generation rank := by
  rintro rfl
  cases hpc : (state.slots (pool, slot)).worker.pc <;>
    simp only [State.workerStep, hpc] at hstep
  all_goals
    repeat' split at hstep
    all_goals simp at hstep

theorem runRank_not_left {call : Call} {generation rank : ℕ}
    {place place' : BlockRunners.RankPc} {event : Event}
    (hrun : state.runRank program call generation rank place =
      some (after, place', some event))
    (pool' generation' rank' : ℕ) :
    event ≠ .left pool' generation' rank' := by
  rintro rfl
  cases place <;> simp [State.runRank] at hrun

theorem producerStep_not_left {event : Event}
    (hstep : state.producerStep program = some (after, some event))
    (pool' generation rank : ℕ) : event ≠ .left pool' generation rank := by
  rintro rfl
  cases hpc : state.producer <;>
    simp only [State.producerStep, hpc] at hstep
  all_goals
    repeat' split at hstep
    all_goals simp at hstep
  -- what remains are the runners of slot 0 and of a covered rank
  all_goals
    obtain ⟨middle, place', hrun, -⟩ := hstep
    exact runRank_not_left hrun _ _ _ rfl

/-- Only the two leaving actions show that a share was left. -/
theorem not_left_of_step {action : Action} {event : Event}
    (hstep : (machine program).step state action = some (after, some event))
    (hproducer : action ≠ .producerLeaves)
    (hworker : ∀ pool slot, action ≠ .workerLeaves pool slot)
    (pool' generation rank : ℕ) : event ≠ .left pool' generation rank := by
  cases action with
  | call call =>
      simp only [machine, JobCaches.step] at hstep
      split at hstep <;> simp at hstep
  | producer => exact producerStep_not_left hstep _ _ _
  | cover =>
      rintro rfl
      simp only [machine, JobCaches.step, State.coverStep] at hstep
      repeat' split at hstep
      all_goals simp at hstep
  | poll slot =>
      simp only [machine, JobCaches.step, State.pollStep,
        Option.bind_eq_some_iff] at hstep
      obtain ⟨pool, -, hstep⟩ := hstep
      split at hstep <;> simp at hstep
  | producerLeaves => exact absurd rfl hproducer
  | worker pool slot =>
      simp only [machine, JobCaches.step] at hstep
      split at hstep
      · exact workerStep_not_left hstep _ _ _
      · simp at hstep
  | workerLeaves pool slot => exact absurd rfl (hworker pool slot)

/-- Without the leaving actions no share is left early. -/
theorem not_leftEarly_of_run {allowed : State → Action → Prop}
    (hallowed : ∀ state action, allowed state action →
      action ≠ .producerLeaves ∧ ∀ pool slot, action ≠ .workerLeaves pool slot)
    (run : Run (machine program) allowed start trace state)
    (pool generation : ℕ) : ¬ LeftEarly pool generation trace := by
  rintro ⟨rank, hmem⟩
  obtain ⟨earlier, later, hsplit⟩ := List.append_of_mem hmem
  refine run.at_event (fun _ _ => True)
    (fun _ event => event ≠ .left pool generation rank) (fun _ => trivial) ?_
    earlier _ later hsplit rfl
  intro trace before action after event _ hstepAllowed hstep
  obtain ⟨hproducer, hworker⟩ := hallowed _ _ hstepAllowed
  exact not_left_of_step hstep hproducer hworker _ _ _

/-! ## Reuse publications -/

/-- A worker that has read a job like the call's has the call's descriptor in
its caches. -/
theorem Synced.cacheMatches {job : Job} {worker : Worker} {call : Call}
    (hsynced : Synced program job worker)
    (hsame : SameJob program job.call call)
    (hfilled : Filled program call
      (state.descs (call.desc program)).fields) :
    CacheMatches program state (call.desc program) worker := by
  have hvalue : ∀ field ∈ [Field.workerEntry, .workerStateBase, .blockCount,
      .participants, .chunk, .first, .last, .fnPtr],
      (state.descs (call.desc program)).fields field =
        call.value program field := fun field hfield =>
    hfilled field (mem_written hfield)
  refine ⟨?_, ?_, ?_, hsynced.primed, fun field hfield => ?_⟩
  · rw [hsynced.cachedDesc]
    exact congrArg some hsame.desc
  · rw [hsynced.entry, hsame.workerEntry, hvalue .workerEntry (by simp)]
    rfl
  · rw [hsynced.cold, hvalue .workerStateBase (by simp),
      primitive_of_desc hsame.desc]
    by_cases hfor : call.primitive program = .parallelFor <;>
      simp [Call.value, hfor]
  · rw [hsynced.entry_eq] at hfield
    rw [hsynced.copied field hfield (by simp),
      hvalue field (copied_subset _ hfield)]
    exact hsame.values field hfield

/-- While the invariant holds, a reuse publication is sound. -/
theorem Inv.reuseSound (hinv : Inv program ranks trace state) :
    ReuseSound program state := by
  intro call dispatch next hpc hreuse other hpos hlt
  have hactive : state.producer.active = some (call, dispatch) := by
    rw [hpc]; rfl
  have hok := hinv.active call dispatch hactive
  have hworker := hinv.hasWorker hactive hpos hlt
  have hjob : (state.producer.newJob other).getD
      (state.published call.pool) = state.published call.pool := by
    simp [hpc, ProducerPc.newJob, hreuse]
  have hstage := hinv.stage
  rw [hpc] at hstage
  obtain ⟨-, -, hready, -⟩ := hstage
  obtain ⟨hslot, -, -, hcurrent, -⟩ := hinv.ownSlot hactive hworker hjob rfl
  have hwordPos := hinv.reuse_pos hactive hreuse hslot
  refine Synced.cacheMatches ?_ (hok.reuse hreuse).2 hok.filled
  by_cases hfront : other < next
  · have hopened : state.producer.ownTurn other = .opened := by
      rw [hpc]
      exact if_pos hfront
    have hword := word_of_phase (hcurrent (by simp [hopened]))
    exact hslot.synced hwordPos (.inl (hword.2.1.trans hreuse))
  · have hclosed : state.producer.ownTurn other = .closed := by
      rw [hpc]
      exact if_neg hfront
    rw [hclosed] at hslot
    exact hslot.synced_of_drained
      (hready other (Nat.le_of_not_lt hfront) hworker).2 hwordPos

end Runs

end Citor.JobCaches
