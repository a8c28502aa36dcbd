import Citor.Dispatch.SingleOwner

/-!
# Deques change hands

Owners of a deque that follow each other are kept apart: every step belongs to
one thread and leaves what the others own alone, so that a deque is free for a
moment before it gets another owner.  This is what lets a deque without a lock
on the owner's side have more than one owner in the course of a run.
-/

namespace Citor.DequeOwners

open Interleaving
open Reentrancy (ThreadId ThreadContext PoolShape)

/-- The thread that takes a step. -/
def Action.thread : Action → ThreadId
  | .call thread _ | .producer thread | .cover thread => .producer thread
  | .worker pool slot => .worker pool slot
  | .nest thread _ _ | .advance thread | .take thread | .leave thread => thread

/-- Nobody works on the deque. -/
def State.Free (state : State) (pool slot : ℕ) : Prop :=
  ∀ thread, ¬ state.Owns thread pool slot

/-- The steps of a guarded run in which the deque has an owner all the time,
who may change. -/
def NeverFree (pool slot : ℕ) (state : State) (action : Action) : Prop :=
  OwnersGuarded state action ∧ ¬ state.Free pool slot

/-- What a thread owns is read off these parts of the state. -/
structure Untouched (state after : State) (other : ThreadId) : Prop where
  frames : after.frames other = state.frames other
  contexts : after.contexts other = state.contexts other
  producers : ∀ index, other = .producer index →
    after.producers index = state.producers index

section Steps

variable {shapes : ℕ → PoolShape} {state after : State} {other : ThreadId}
variable {pool slot : ℕ}

theorem Untouched.owns (huntouched : Untouched state after other) :
    after.Owns other pool slot ↔ state.Owns other pool slot := by
  have hroots : (∃ index, other = .producer index ∧
      (after.producers index).rooting = some pool ∧ slot = 0) ↔
      ∃ index, other = .producer index ∧
        (state.producers index).rooting = some pool ∧ slot = 0 := by
    apply exists_congr
    intro index
    apply and_congr_right
    intro hthread
    rw [huntouched.producers index hthread]
  unfold State.Owns
  rw [huntouched.frames, huntouched.contexts, hroots]

/-- A step of a producer that moves its own place, and its own frames and
context at most. -/
theorem Untouched.ofProducer {thread : ℕ} {pc : ProducerPc}
    (hother : other ≠ .producer thread)
    (hframes : after.frames other = state.frames other)
    (hcontexts : after.contexts other = state.contexts other)
    (hproducers : after.producers = Function.update state.producers thread pc) :
    Untouched state after other where
  frames := hframes
  contexts := hcontexts
  producers index hthread := by
    have hne : index ≠ thread := by
      intro hsame
      apply hother
      rw [hthread, hsame]
    rw [hproducers, Function.update_of_ne hne]

theorem Untouched.producerStep {thread : ℕ}
    (hother : other ≠ .producer thread)
    (hstep : state.producerStep shapes thread = some after) :
    Untouched state after other := by
  have hupdate : ∀ {Value : Type} (values : ThreadId → Value) (value : Value),
      Function.update values (.producer thread) value other = values other :=
    fun values value => Function.update_of_ne hother value values
  cases hpc : state.producers thread <;>
    simp only [State.producerStep, hpc, reduceCtorEq] at hstep
  case entryDrain call look | drain job look =>
    obtain rfl := Option.some.inj hstep
    obtain ⟨cleared, hcleared⟩ := drainStep_eq shapes state _ look
    rw [hcleared]
    exact .ofProducer hother rfl rfl rfl
  case enterSlot0 job =>
    obtain rfl := Option.some.inj hstep
    exact .ofProducer hother (hupdate _ _) (hupdate _ _) rfl
  case slot0 job saved | cover job slot saved =>
    split_ifs at hstep
    obtain rfl := Option.some.inj hstep
    exact .ofProducer hother rfl (hupdate _ _) rfl
  case roots ticket left =>
    cases left <;> obtain rfl := Option.some.inj hstep <;>
      exact .ofProducer hother rfl rfl rfl
  case join job slot =>
    split_ifs at hstep <;> obtain rfl := Option.some.inj hstep <;>
      exact .ofProducer hother rfl rfl rfl
  case lease ticket =>
    split_ifs at hstep <;> obtain rfl := Option.some.inj hstep <;>
      exact .ofProducer hother rfl rfl rfl
  case release pool =>
    obtain rfl := Option.some.inj hstep
    split <;> exact .ofProducer hother rfl rfl rfl
  case fillKey call | fillEntry call keyMatches | fillBase call keyMatches |
      shape call keyMatches | coverStamp job slot =>
    split_ifs at hstep <;> obtain rfl := Option.some.inj hstep <;>
      exact .ofProducer hother rfl rfl rfl
  all_goals
    obtain rfl := Option.some.inj hstep
    exact .ofProducer hother rfl rfl rfl

theorem Untouched.coverStep {thread : ℕ} (hother : other ≠ .producer thread)
    (hstep : state.coverStep shapes thread = some after) :
    Untouched state after other := by
  cases hpc : state.producers thread <;>
    simp only [State.coverStep, hpc, reduceCtorEq] at hstep
  case join job slot =>
    split_ifs at hstep
    obtain rfl := Option.some.inj hstep
    exact .ofProducer hother (Function.update_of_ne hother _ _)
      (Function.update_of_ne hother _ _) rfl

/-- A worker opens frames of its own when its share begins, and changes
nothing but slots elsewhere. -/
theorem Untouched.workerStep {rank : ℕ} (hother : other ≠ .worker pool rank)
    (hstep : state.workerStep pool rank = some after) :
    Untouched state after other := by
  have hslot : ∀ contents, Untouched state
      (state.setSlot pool rank contents) other :=
    fun _ => ⟨rfl, rfl, fun _ _ => rfl⟩
  have hframes : ∀ (values : ThreadId → List Frame) (frames : List Frame),
      Function.update values (.worker pool rank) frames other =
        values other :=
    fun values frames => Function.update_of_ne hother frames values
  cases hpc : (state.slots (pool, rank)).worker.pc <;>
    simp only [State.workerStep, hpc] at hstep
  case load =>
    split_ifs at hstep
    obtain rfl := Option.some.inj hstep
    exact hslot _
  case enter mailbox =>
    split at hstep
    · obtain rfl := Option.some.inj hstep
      exact hslot _
    · split_ifs at hstep <;> obtain rfl := Option.some.inj hstep <;>
        exact hslot _
  case copy mailbox =>
    split at hstep
    · obtain rfl := Option.some.inj hstep
      exact hslot _
    · simp at hstep
  case claim mailbox =>
    split at hstep
    · obtain rfl := Option.some.inj hstep
      exact ⟨hframes _ _, rfl, fun _ _ => rfl⟩
    · split_ifs at hstep <;> obtain rfl := Option.some.inj hstep
      · exact ⟨hframes _ _, rfl, fun _ _ => rfl⟩
      · exact hslot _
  case run mailbox =>
    obtain ⟨desc, -, rfl⟩ := Option.map_eq_some_iff.1 hstep
    exact ⟨hframes _ _, rfl, fun _ _ => rfl⟩
  case share mailbox =>
    split_ifs at hstep
    obtain rfl := Option.some.inj hstep
    exact hslot _
  case stamp mailbox coldCollapseDispatch =>
    split at hstep <;> obtain rfl := Option.some.inj hstep <;> exact hslot _
  case readEntry | readBase | acknowledge =>
    obtain rfl := Option.some.inj hstep
    exact hslot _

/-- A call inside a share moves the frames of its thread. -/
theorem Untouched.setFrames {thread : ThreadId} (hother : other ≠ thread)
    (frames : List Frame) :
    Untouched state (state.setFrames thread frames) other :=
  ⟨Function.update_of_ne hother _ _, rfl, fun _ _ => rfl⟩

/-- Every step belongs to one thread. -/
theorem Untouched.step {action : Action} (hother : other ≠ action.thread)
    (hstep : step shapes state action = some after) :
    Untouched state after other := by
  cases action with
  | call thread call =>
      simp only [DequeOwners.step] at hstep
      split_ifs at hstep
      obtain rfl := Option.some.inj hstep
      exact .ofProducer hother rfl rfl rfl
  | producer thread => exact .producerStep hother hstep
  | cover thread => exact .coverStep hother hstep
  | worker pool rank =>
      simp only [DequeOwners.step] at hstep
      split_ifs at hstep
      exact .workerStep hother hstep
  | nest thread pool call =>
      simp only [DequeOwners.step, State.nest] at hstep
      split at hstep
      · split_ifs at hstep
        obtain rfl := Option.some.inj hstep
        exact .setFrames hother _
      · simp at hstep
  | advance thread =>
      simp only [DequeOwners.step, State.advance] at hstep
      split at hstep
      · obtain ⟨pc, -, rfl⟩ := Option.map_eq_some_iff.1 hstep
        exact .setFrames hother _
      · simp at hstep
  | take thread =>
      simp only [DequeOwners.step, State.take] at hstep
      split at hstep
      · obtain rfl := Option.some.inj hstep
        exact .setFrames hother _
      · simp at hstep
  | leave thread =>
      simp only [DequeOwners.step, State.leave] at hstep
      split at hstep
      · obtain rfl := Option.some.inj hstep
        exact .setFrames hother _
      · obtain rfl := Option.some.inj hstep
        exact .setFrames hother _
      · simp at hstep

/-- In one step a deque does not get from one thread to another. -/
theorem owner_eq_of_step (hbefore : state.SingleOwner)
    (hafter : after.SingleOwner) {action : Action}
    (hstep : step shapes state action = some after) {thread : ThreadId}
    (howns : state.Owns thread pool slot)
    (hother : after.Owns other pool slot) : thread = other := by
  by_cases hmoved : thread = action.thread
  · by_cases hsame : other = action.thread
    · rw [hmoved, hsame]
    · apply hbefore howns
      exact (Untouched.step hsame hstep).owns.1 hother
  · apply hafter _ hother
    exact (Untouched.step hmoved hstep).owns.2 howns

/-- While a deque is never free its owner stays. -/
theorem Inv.keeps_owner (hinv : Inv shapes state) {thread : ThreadId}
    (howns : state.Owns thread pool slot) {later : List Empty}
    (hrun : Run (machine shapes) (NeverFree pool slot) state later after) :
    Inv shapes after ∧
      ∀ other, after.Owns other pool slot → thread = other := by
  induction hrun with
  | start => exact ⟨hinv, fun other hother => hinv.singleOwner howns hother⟩
  | @next trace before action after event _ hallowed hstep ih =>
      obtain ⟨hguarded, howned⟩ := hallowed
      obtain ⟨hbefore, hkept⟩ := ih
      obtain ⟨_, hnext, hpair⟩ := Option.map_eq_some_iff.1 hstep
      obtain ⟨rfl, -⟩ := Prod.mk.inj hpair
      have hafter := hbefore.step hguarded hnext
      obtain ⟨owner, howner⟩ := not_forall_not.1 howned
      have hsame : thread = owner := hkept owner howner
      apply And.intro hafter
      intro other hother
      calc
        thread = owner := hsame
        _ = other := owner_eq_of_step hbefore.singleOwner
          hafter.singleOwner hnext howner hother

end Steps

/-- In a run with one producer at a time in every dispatch section, whose shares
begin with their ranks, a deque has one owner at a time, and nobody works on it
at some moment between two different ones. -/
theorem handsOver_of_guarded {shapes : ℕ → PoolShape} {trace : List Empty}
    {state : State}
    (hrun : Run (machine shapes) OwnersGuarded start trace state) :
    state.SingleOwner ∧
      ∀ pool slot thread other later after, state.Owns thread pool slot →
        Run (machine shapes) (NeverFree pool slot) state later after →
        after.Owns other pool slot → thread = other := by
  have hinv := inv_of_run hrun
  constructor
  · exact hinv.singleOwner
  · intro pool slot thread other later after howns hlater
    exact (hinv.keeps_owner howns hlater).2 other

/-! ## From the producer to the worker -/

/-- The producer that covers the worker's rank ends its call; the worker finds
its rank taken, and is in time for the next call. -/
def workerInTime : List Action :=
  [.leave (.producer 0)] ++ producerSteps 4 ++ workerSteps 3 ++
    throughSlot0 0 2 12 ++ workerSteps 6

def ownersChecked (state : State) (action : Action) : Bool :=
  decide (OwnersGuarded state action)

theorem ownersChecked_sound {state : State} {action : Action} (_ : True)
    (hcheck : ownersChecked state action = true) :
    OwnersGuarded state action :=
  of_decide_eq_true hcheck

/-- The worker gets its deque back from the producer, which it does in no run
where the deque is never free. -/
theorem handsOver_workerInTime : ∃ trace later state after,
    Run (machine twoPools) OwnersGuarded start trace state ∧
    Run (machine twoPools) OwnersGuarded state later after ∧
    state.Owns (.producer 0) 0 1 ∧ after.Owns (.worker 0 1) 0 1 ∧
    ∀ trace, ¬ Run (machine twoPools) (NeverFree 0 1) state trace after := by
  obtain ⟨trace, state, hrun, haccept⟩ := run_of_checked (machine twoPools)
    ownersChecked (fun _ => True) ownersChecked_sound
    (fun _ _ _ => trivial) start trivial
    (coveredReuse ++ [.cover 0])
    (fun _ state =>
      decide (state.frames (.producer 0) = [⟨0, 1, .body⟩]) &&
      decide ((execChecked (machine twoPools) ownersChecked state
          workerInTime).map
        (fun outcome => decide
          (outcome.1.frames (.worker 0 1) = [⟨0, 1, .body⟩])) = some true))
    (by decide +kernel)
  simp only [Bool.and_eq_true, decide_eq_true_eq] at haccept
  obtain ⟨hproducer, hlast⟩ := haccept
  obtain ⟨later, after, hlater, hworker⟩ := run_of_checked (machine twoPools)
    ownersChecked (fun _ => True) ownersChecked_sound
    (fun _ _ _ => trivial) state trivial workerInTime
    (fun _ after => decide (after.frames (.worker 0 1) = [⟨0, 1, .body⟩]))
    hlast
  have howns : state.Owns (.producer 0) 0 1 :=
    .inl ⟨⟨0, 1, .body⟩, by simp [hproducer], rfl, rfl⟩
  have hother : after.Owns (.worker 0 1) 0 1 :=
    .inl ⟨⟨0, 1, .body⟩, by simp [of_decide_eq_true hworker], rfl, rfl⟩
  refine ⟨trace, later, state, after, hrun, hlater, howns, hother, ?_⟩
  intro trace hnever
  simpa using (handsOver_of_guarded hrun).2 0 1 _ _ trace after howns hnever
    hother

end Citor.DequeOwners
