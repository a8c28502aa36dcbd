import Citor.Dispatch.ParkingPool

/-!
# What one step of the pool touches

A step moves one call, one guard or the workers, and leaves everybody else's
program counter alone.
-/

namespace Citor.ParkingPool

open Citor.Interleaving
open Citor.WorkerLoop

variable {participants : ℕ} {before after : State} {action : Action}
variable {event : Option Event}

/-- The thread whose call an action moves. -/
def Action.caller : Action → Option ℕ
  | .dispatch thread _ | .advance thread | .collect thread _
  | .probeDone thread _ | .giveUp thread | .cover thread
  | .wakeTwo thread _ => some thread
  | _ => none

theorem setProducer_other (state : State) {thread other : ℕ}
    (hother : other ≠ thread) (pc : ProducerPc) :
    (state.setProducer thread pc).producer other = state.producer other :=
  Function.update_of_ne hother _ _

theorem stepProducer_other {thread other : ℕ} (hother : other ≠ thread)
    (hstep : stepProducer participants before thread = some (after, event)) :
    after.producer other = before.producer other := by
  cases hpc : before.producer thread <;>
    simp only [stepProducer, hpc, reduceCtorEq] at hstep
  all_goals
    repeat' split at hstep
  all_goals simp only [Option.some.injEq, Prod.mk.injEq, reduceCtorEq] at hstep
  all_goals
    obtain ⟨rfl, rfl⟩ := hstep
    exact setProducer_other _ hother _

theorem stepGuard_producer {index : ℕ}
    (hstep : stepGuard participants before index = some (after, event)) :
    after.producer = before.producer := by
  unfold stepGuard at hstep
  repeat' split at hstep
  all_goals simp only [Option.some.injEq, Prod.mk.injEq, reduceCtorEq] at hstep
  all_goals
    obtain ⟨rfl, rfl⟩ := hstep
    rfl

/-- Only the caller's program counter moves. -/
theorem step_other
    (hstep : (pool participants).step before action = some (after, event))
    {other : ℕ} (hother : action.caller ≠ some other) :
    after.producer other = before.producer other := by
  have hne : ∀ thread, action.caller = some thread → other ≠ thread :=
    fun thread hcaller hsame => hother (hsame ▸ hcaller)
  cases action <;> simp only [pool] at hstep
  case advance thread => exact stepProducer_other (hne thread rfl) hstep
  case advanceGuard index => rw [stepGuard_producer hstep]
  case worker index =>
    split at hstep
    next =>
      obtain ⟨moved, -, hmoved⟩ := Option.map_eq_some_iff.1 hstep
      obtain ⟨rfl, rfl⟩ := by simpa using hmoved
      rfl
    next => simp at hstep
  case leaveSpin index =>
    split at hstep
    next =>
      obtain ⟨moved, -, hmoved⟩ := Option.map_eq_some_iff.1 hstep
      obtain ⟨rfl, rfl⟩ := by simpa using hmoved
      rfl
    next => simp at hstep
  case engage thread onPool =>
    obtain ⟨rfl, rfl⟩ := by simpa using hstep
    cases onPool <;> rfl
  all_goals
    repeat' split at hstep
  all_goals simp only [Option.some.injEq, Prod.mk.injEq, reduceCtorEq] at hstep
  all_goals
    obtain ⟨rfl, rfl⟩ := hstep
    first
    | rfl
    | exact setProducer_other _ (hne _ rfl) _

/-- All threads but thread 0 are outside of dispatching calls. -/
def State.OnlyFirstCalls (state : State) : Prop :=
  ∀ other, other ≠ 0 → state.producer other = .idle

theorem onlyFirstCalls_step (honly : before.OnlyFirstCalls)
    (hcaller : action.caller = none ∨ action.caller = some 0)
    (hstep : (pool participants).step before action = some (after, event)) :
    after.OnlyFirstCalls := by
  intro other hother
  rw [step_other hstep, honly other hother]
  rcases hcaller with hnone | hfirst
  · simp [hnone]
  · simpa [hfirst] using Ne.symm hother

/-! ## Two kinds of calls -/

/-- A `parallelFor` that may be cold-collapsed. -/
def coldRequest (drainsFirst : Bool) : Request where
  drainsFirst := drainsFirst
  locked := false
  coldCollapseCapable := true
  preWakeCompletionProbe := false
  reuseSafe := false
  multiBlock := false

/-- A fork-join call. -/
def lockedRequest : Request where
  drainsFirst := false
  locked := true
  coldCollapseCapable := false
  preWakeCompletionProbe := false
  reuseSafe := false
  multiBlock := false

end Citor.ParkingPool
