import Citor.Core.Census
import Citor.ForkJoin.ForkJoinCalls

/-!
# Where tasks and calls are

A task that has not retired is in exactly one place: not yet pushed, in a
deque, or in the one frame that runs it.  A call that has not returned is in
the hands of exactly one frame.  Each of these facts is a census of the frames
and the deques, so a step has to be weighed only where it changes them.
-/

namespace Citor.ForkJoin

open Citor.Interleaving Citor.Census

variable {Exn : Type}

/-! ## Weights of frames -/

/-- The call a frame belongs to. -/
@[simp] def Frame.call : Frame Exn → ℕ
  | .push call _ _ => call
  | .gate task _ => task.call
  | .poll task _ => task.call
  | .body task _ _ => task.call
  | .wait task _ _ => task.call
  | .capture task _ _ => task.call
  | .cancel task _ => task.call
  | .retire task _ _ => task.call
  | .drain call _ _ _ => call
  | .join call => call
  | .rethrow call => call
  | .ret call _ => call

/-- One for the task itself. -/
def isTask (task other : Task) : ℕ :=
  (decide (other = task)).toNat

theorem eq_of_isTask_pos {task other : Task} (hpos : 0 < isTask task other) :
    other = task := by
  by_contra hne
  rw [isTask, decide_eq_false hne] at hpos
  exact absurd hpos (lt_irrefl 0)

/-- The task is still to be pushed by the frame. -/
def unpushed (task : Task) (call next count : ℕ) : ℕ :=
  (decide (task.call = call ∧ next ≤ task.index ∧ task.index < count)).toNat

/-- The task is in the frame's hands. -/
@[simp] def Frame.places (task : Task) : Frame Exn → ℕ
  | .push call next count => unpushed task call next count
  | .gate other _ => isTask task other
  | .poll other _ => isTask task other
  | .body other _ _ => isTask task other
  | .wait other _ _ => isTask task other
  | .capture other _ _ => isTask task other
  | .cancel other _ => isTask task other
  | .retire other _ _ => isTask task other
  | _ => 0

/-- The task the frame runs. -/
def Frame.task? : Frame Exn → Option Task
  | .gate task _ => some task
  | .poll task _ => some task
  | .body task _ _ => some task
  | .wait task _ _ => some task
  | .capture task _ _ => some task
  | .cancel task _ => some task
  | .retire task _ _ => some task
  | _ => none

theorem Frame.task?_of_places {task : Task} {frame : Frame Exn}
    (hplaces : 0 < frame.places task)
    (hpushed : ∀ next count, frame ≠ .push task.call next count) :
    frame.task? = some task := by
  cases frame with
  | push call next count =>
      have hunpushed : task.call = call := by
        by_contra hne
        simp [places, unpushed, hne] at hplaces
      exact absurd (hunpushed ▸ rfl) (hpushed next count)
  | drain | join | rethrow | ret => simp [places] at hplaces
  | _ =>
      refine congrArg some ?_
      by_contra hne
      simp [places, isTask, hne] at hplaces

/-- The task is in the frame's hands and its gate is still ahead. -/
@[simp] def Frame.holdsBack (task : Task) : Frame Exn → ℕ
  | .push call next count => unpushed task call next count
  | .gate other _ => isTask task other
  | .poll other _ => isTask task other
  | _ => 0

/-- The frame is inside the task's body. -/
@[simp] def Frame.runs (task : Task) : Frame Exn → ℕ
  | .body other _ _ => isTask task other
  | .wait other _ _ => isTask task other
  | _ => 0

/-- One where the frame of a task is also the frame of its call. -/
@[simp] def Via.owns (call : ℕ) (task : Task) : Via → ℕ
  | .tail => (decide (task.call = call)).toNat
  | .single => (decide (task.call = call)).toNat
  | _ => 0

/-- The frame carries the call on. -/
@[simp] def Frame.owns (call : ℕ) : Frame Exn → ℕ
  | .push other _ _ => (decide (other = call)).toNat
  | .gate task via => via.owns call task
  | .poll task via => via.owns call task
  | .body task via _ => via.owns call task
  | .wait task via _ => via.owns call task
  | .capture task via _ => via.owns call task
  | .cancel task via => via.owns call task
  | .retire task via _ => via.owns call task
  | .drain other role _ _ => (decide (other = call ∧ role ≠ .worker)).toNat
  | .join other => (decide (other = call)).toNat
  | .rethrow other => (decide (other = call)).toNat
  | .ret other _ => (decide (other = call)).toNat

/-- The frame carries an exception of the task that its call has not stored. -/
@[simp] def Frame.throws (task : Task) : Frame Exn → ℕ
  | .capture other _ _ => isTask task other
  | .retire other .single (some _) => isTask task other
  | .ret call (some _) => (decide (task.call = call)).toNat
  | _ => 0

/-- Pushing one task. -/
theorem unpushed_push (task : Task) {call next count : ℕ}
    (hnext : next < count) : unpushed task call next count =
      unpushed task call (next + 1) count + isTask task ⟨call, next⟩ := by
  rcases task with ⟨other, index⟩
  rcases lt_trichotomy index next with hlt | rfl | hgt
  · simp [unpushed, isTask, show ¬ next ≤ index by omega,
      show ¬ next + 1 ≤ index by omega, show next ≠ index by omega]
  · simp [unpushed, isTask, hnext, eq_comm]
  · simp [unpushed, isTask, show next ≤ index by omega,
      show next + 1 ≤ index by omega, show next ≠ index by omega]

/-- Everything is pushed. -/
theorem unpushed_all (task : Task) (call count : ℕ) :
    unpushed task call count count = 0 := by
  simp only [unpushed, Bool.toNat_eq_zero, decide_eq_false_iff_not]
  omega

/-- All but the inline tail are pushed. -/
theorem unpushed_tail (task : Task) (call next : ℕ) :
    unpushed task call next (next + 1) = isTask task ⟨call, next⟩ := by
  rw [unpushed_push task (Nat.lt_succ_self next), unpushed_all, Nat.zero_add]

theorem Frame.throws_le (task : Task) (frame : Frame Exn) :
    frame.throws task ≤ frame.places task + frame.owns task.call := by
  fun_cases Frame.throws <;> simp [eq_comm]

theorem Frame.holdsBack_le (task : Task) (frame : Frame Exn) :
    frame.holdsBack task ≤ frame.places task := by
  cases frame <;> simp

theorem Frame.runs_le (task : Task) (frame : Frame Exn) :
    frame.runs task ≤ frame.places task := by
  cases frame <;> simp

/-! ## Events of a task -/

@[simp] def Event.isRan (task : Task) : Event Exn → Bool
  | .ran other => other = task
  | _ => false

@[simp] def Event.isSkipped (task : Task) : Event Exn → Bool
  | .skipped other => other = task
  | _ => false

@[simp] def Event.isEnded (task : Task) : Event Exn → Bool
  | .ended other _ => other = task
  | _ => false

@[simp] def Event.isRetired (task : Task) : Event Exn → Bool
  | .retired other _ => other = task
  | _ => false

@[simp] def Event.isReturned (call : ℕ) : Event Exn → Bool
  | .returned other _ => other = call
  | _ => false

/-- How often the body of a task was entered. -/
def ranCount (trace : List (Event Exn)) (task : Task) : ℕ :=
  trace.countP (Event.isRan task)

def skippedCount (trace : List (Event Exn)) (task : Task) : ℕ :=
  trace.countP (Event.isSkipped task)

/-- How often the body of a task came to its end. -/
def endedCount (trace : List (Event Exn)) (task : Task) : ℕ :=
  trace.countP (Event.isEnded task)

/-- How often a task was retired, by either count. -/
def retiredCount (trace : List (Event Exn)) (task : Task) : ℕ :=
  trace.countP (Event.isRetired task)

def returnedCount (trace : List (Event Exn)) (call : ℕ) : ℕ :=
  trace.countP (Event.isReturned call)

section Counts

variable (event : Event Exn) (task : Task)

@[simp] theorem ranCount_nil : ranCount ([] : List (Event Exn)) task = 0 := rfl

@[simp] theorem skippedCount_nil :
    skippedCount ([] : List (Event Exn)) task = 0 := rfl

@[simp] theorem endedCount_nil :
    endedCount ([] : List (Event Exn)) task = 0 := rfl

@[simp] theorem retiredCount_nil :
    retiredCount ([] : List (Event Exn)) task = 0 := rfl

@[simp] theorem returnedCount_nil (call : ℕ) :
    returnedCount ([] : List (Event Exn)) call = 0 := rfl

@[simp] theorem ranCount_singleton :
    ranCount [event] task = (event.isRan task).toNat := by
  cases h : event.isRan task <;> simp only [ranCount, List.countP_cons, List.countP_nil, h] <;> rfl

@[simp] theorem skippedCount_singleton :
    skippedCount [event] task = (event.isSkipped task).toNat := by
  cases h : event.isSkipped task <;> simp only [skippedCount, List.countP_cons, List.countP_nil, h] <;> rfl

@[simp] theorem endedCount_singleton :
    endedCount [event] task = (event.isEnded task).toNat := by
  cases h : event.isEnded task <;> simp only [endedCount, List.countP_cons, List.countP_nil, h] <;> rfl

@[simp] theorem retiredCount_singleton :
    retiredCount [event] task = (event.isRetired task).toNat := by
  cases h : event.isRetired task <;> simp only [retiredCount, List.countP_cons, List.countP_nil, h] <;> rfl

@[simp] theorem returnedCount_singleton (call : ℕ) :
    returnedCount [event] call = (event.isReturned call).toNat := by
  cases h : event.isReturned call <;> simp only [returnedCount, List.countP_cons, List.countP_nil, h] <;> rfl

end Counts

section Append

variable (trace : List (Event Exn)) (event : Option (Event Exn)) (task : Task)

theorem ranCount_append : ranCount (trace ++ event.toList) task =
    ranCount trace task + ranCount event.toList task := by
  simp [ranCount]

theorem skippedCount_append : skippedCount (trace ++ event.toList) task =
    skippedCount trace task + skippedCount event.toList task := by
  simp [skippedCount]

theorem endedCount_append : endedCount (trace ++ event.toList) task =
    endedCount trace task + endedCount event.toList task := by
  simp [endedCount]

theorem retiredCount_append : retiredCount (trace ++ event.toList) task =
    retiredCount trace task + retiredCount event.toList task := by
  simp [retiredCount]

theorem returnedCount_append (call : ℕ) :
    returnedCount (trace ++ event.toList) call =
      returnedCount trace call + returnedCount event.toList call := by
  simp [returnedCount]

end Append

/-! ## A step as an exchange -/

/-- The weight of everything the slots hold. -/
def State.total (participants : ℕ) (state : State Exn)
    (frameWeight : Frame Exn → ℕ) (taskWeight : Task → ℕ) : ℕ :=
  census participants frameWeight state.frames +
    census participants taskWeight state.deques

/-- The step takes the frames `old` and the tasks `out` away and puts `new` and
`inn` there. -/
structure Exchange (participants : ℕ) (before after : State Exn)
    (old new : List (Frame Exn)) (out inn : List Task) : Prop where
  total : ∀ frameWeight taskWeight,
    after.total participants frameWeight taskWeight +
        (weigh frameWeight old + weigh taskWeight out) =
      before.total participants frameWeight taskWeight +
        (weigh frameWeight new + weigh taskWeight inn)
  frames : ∀ slot, ∀ frame ∈ after.frames slot,
    frame ∈ before.frames slot ∨ frame ∈ new
  tasks : ∀ slot, ∀ task ∈ after.deques slot,
    task ∈ before.deques slot ∨ task ∈ inn

/-- The general exchange: one slot's frames and one deque change. -/
theorem exchange_of_updates {participants slot owner : ℕ}
    {before after : State Exn} {old new rest : List (Frame Exn)}
    {out inn tasks : List Task} (hslot : slot < participants)
    (howner : owner < participants)
    (htop : before.frames slot = old ++ rest)
    (hframes : after.frames =
      Function.update before.frames slot (new ++ rest))
    (hdeques : after.deques = Function.update before.deques owner tasks)
    (hperm : (before.deques owner ++ inn).Perm (tasks ++ out)) :
    Exchange participants before after old new out inn where
  total := by
    intro frameWeight taskWeight
    have hframe := census_update hslot frameWeight before.frames (new ++ rest)
    have htask := census_update howner taskWeight before.deques tasks
    have hweigh := weigh_perm taskWeight hperm
    rw [htop] at hframe
    simp only [weigh_append] at hframe hweigh
    simp only [State.total, hframes, hdeques]
    omega
  frames := by
    intro other frame hframe
    rw [hframes] at hframe
    by_cases hother : other = slot
    · subst hother
      rw [Function.update_self, List.mem_append] at hframe
      rw [htop, List.mem_append]
      tauto
    · rw [Function.update_of_ne hother] at hframe
      exact .inl hframe
  tasks := by
    intro other task htask
    rw [hdeques] at htask
    by_cases hother : other = owner
    · subst hother
      rw [Function.update_self] at htask
      have hmem := hperm.symm.subset (List.mem_append_left out htask)
      exact List.mem_append.1 hmem
    · rw [Function.update_of_ne hother] at htask
      exact .inl htask

/-- An exchange that leaves the deques alone. -/
theorem exchange_of_frames {participants slot : ℕ} {before after : State Exn}
    {old new rest : List (Frame Exn)} (hslot : slot < participants)
    (htop : before.frames slot = old ++ rest)
    (hframes : after.frames =
      Function.update before.frames slot (new ++ rest))
    (hdeques : after.deques = before.deques) :
    Exchange participants before after old new [] [] := by
  refine exchange_of_updates hslot hslot htop hframes ?_ (List.Perm.refl _)
  rw [hdeques, Function.update_eq_self]

/-- What an exchange has to leave in balance. -/
structure Balanced (old new : List (Frame Exn)) (out inn : List Task)
    (event : Option (Event Exn)) : Prop where
  placed : ∀ task,
    weigh (Frame.places task) old + weigh (isTask task) out =
      weigh (Frame.places task) new + weigh (isTask task) inn +
        retiredCount event.toList task
  heldBack : ∀ task,
    weigh (Frame.holdsBack task) old + weigh (isTask task) out =
      weigh (Frame.holdsBack task) new + weigh (isTask task) inn +
        (ranCount event.toList task + skippedCount event.toList task)
  running : ∀ task,
    weigh (Frame.runs task) old + ranCount event.toList task =
      weigh (Frame.runs task) new + endedCount event.toList task
  owned : ∀ call, weigh (Frame.owns call) old =
    weigh (Frame.owns call) new + returnedCount event.toList call

end Citor.ForkJoin
