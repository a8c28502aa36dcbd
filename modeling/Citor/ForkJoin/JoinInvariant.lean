import Citor.ForkJoin.TaskPlaces

/-!
# The invariant of the join

`Places` says where tasks and calls are, `Ledger` what the counters and flags
of a call record about the trace.
-/

namespace Citor.ForkJoin

open Citor.Interleaving Citor.Census

variable {Exn : Type}

/-! ## What the trace says -/

def Retired (trace : List (Event Exn)) (task : Task) : Prop :=
  ∃ via, .retired task via ∈ trace

def AllRetired (trace : List (Event Exn)) (record : Call Exn) (call : ℕ) :
    Prop :=
  ∀ index < record.count, Retired trace ⟨call, index⟩

/-- A body of the call threw `thrown`. -/
def Throws (trace : List (Event Exn)) (call : ℕ) (thrown : Exn) : Prop :=
  ∃ index, .ended ⟨call, index⟩ (some thrown) ∈ trace

def Threw (trace : List (Event Exn)) (call : ℕ) : Prop :=
  ∃ thrown, Throws trace call thrown

/-- How many tasks of the call were retired this way. -/
def retiredBy (trace : List (Event Exn)) (via : Via) (call : ℕ) : ℕ :=
  trace.countP fun event => match event with
    | .retired task other => task.call = call ∧ other = via
    | _ => false

theorem retired_of_count {trace : List (Event Exn)} {task : Task}
    (hcount : 0 < retiredCount trace task) : Retired trace task := by
  obtain ⟨event, hevent, hretired⟩ := List.countP_pos_iff.1 hcount
  cases event <;> simp only [Event.isRetired, Bool.false_eq_true] at hretired
  next other via =>
    obtain rfl : other = task := by simpa using hretired
    exact ⟨via, hevent⟩

theorem Retired.count {trace : List (Event Exn)} {task : Task}
    (hretired : Retired trace task) : 0 < retiredCount trace task := by
  obtain ⟨via, hevent⟩ := hretired
  exact List.countP_pos_iff.2 ⟨_, hevent, by simp [Event.isRetired]⟩

theorem endedCount_pos {trace : List (Event Exn)} {task : Task}
    {result : Option Exn} (hevent : .ended task result ∈ trace) :
    0 < endedCount trace task :=
  List.countP_pos_iff.2 ⟨_, hevent, by simp [Event.isEnded]⟩

theorem skippedCount_pos {trace : List (Event Exn)} {task : Task}
    (hcount : 0 < skippedCount trace task) : .skipped task ∈ trace := by
  obtain ⟨event, hevent, hskipped⟩ := List.countP_pos_iff.1 hcount
  cases event <;> simp only [Event.isSkipped, Bool.false_eq_true] at hskipped
  next other =>
    obtain rfl : other = task := by simpa using hskipped
    exact hevent

section Extended

variable {trace : List (Event Exn)} (later : List (Event Exn))

theorem Retired.extended {task : Task} (hretired : Retired trace task) :
    Retired (trace ++ later) task :=
  hretired.imp fun _ hevent => List.mem_append_left _ hevent

theorem AllRetired.extended {record : Call Exn} {call : ℕ}
    (hretired : AllRetired trace record call) :
    AllRetired (trace ++ later) record call :=
  fun index hindex => (hretired index hindex).extended later

theorem Throws.extended {call : ℕ} {thrown : Exn}
    (hthrows : Throws trace call thrown) :
    Throws (trace ++ later) call thrown :=
  hthrows.imp fun _ hevent => List.mem_append_left _ hevent

theorem Threw.extended {call : ℕ} (hthrew : Threw trace call) :
    Threw (trace ++ later) call :=
  hthrew.imp fun _ hthrows => hthrows.extended later

end Extended

/-! ## Frames that fit their calls -/

/-- The parts of a call that never change. -/
structure Call.SameShape (record other : Call Exn) : Prop where
  kind : record.kind = other.kind
  inside : record.inside = other.inside
  count : record.count = other.count
  child : record.child = other.child
  token : record.token = other.token

theorem Call.SameShape.refl (record : Call Exn) : record.SameShape record :=
  ⟨rfl, rfl, rfl, rfl, rfl⟩

theorem Call.SameShape.deferred {record other : Call Exn}
    (hshape : record.SameShape other) : record.deferred = other.deferred := by
  simp only [Call.deferred, hshape.kind, hshape.count]

/-- Which tasks of a call run this way. -/
def Via.Fits (record : Call Exn) (index : ℕ) : Via → Prop
  | .own => record.kind = .nested ∧ index < record.deferred
  | .shared => index < record.deferred
  | .tail => record.kind = .nested ∧ index = record.deferred
  | .single => record.kind = .single ∧ index < record.count

theorem Via.Fits.of_shape {record other : Call Exn}
    (hshape : record.SameShape other) {index : ℕ} {via : Via}
    (hfits : via.Fits other index) : via.Fits record index := by
  cases via <;>
    simpa only [Via.Fits, hshape.kind, hshape.count, hshape.deferred] using hfits

/-- What a frame knows about its call. -/
def FrameOk (trace : List (Event Exn)) (record : Call Exn) :
    Frame Exn → Prop
  | .push _ next count =>
      record.kind ≠ .single ∧ count = record.count ∧ next ≤ record.deferred
  | .gate task via => via.Fits record task.index ∧ via ≠ .single
  | .poll task via => via.Fits record task.index
  | .body task via _ => via.Fits record task.index
  | .wait task via _ => via.Fits record task.index
  | .capture task via thrown =>
      via.Fits record task.index ∧ via ≠ .single ∧
        .ended task (some thrown) ∈ trace
  | .cancel task via =>
      via.Fits record task.index ∧ via ≠ .single ∧ Threw trace task.call
  | .retire task via escaping =>
      via.Fits record task.index ∧
        (via ≠ .single → escaping = none) ∧
        ∀ thrown, escaping = some thrown → .ended task (some thrown) ∈ trace
  | .drain call .nested _ _ =>
      record.kind = .nested ∧ Retired trace ⟨call, record.deferred⟩
  | .drain _ .producer _ _ => record.kind = .outer
  | .drain _ .worker _ _ => True
  | .join call => record.kind = .outer ∧ AllRetired trace record call
  | .rethrow call => record.kind ≠ .single ∧ AllRetired trace record call
  | .ret call result =>
      record.kind = .single ∧ AllRetired trace record call ∧
        ∀ thrown, result = some thrown → Throws trace call thrown

theorem FrameOk.extended {trace : List (Event Exn)} {record other : Call Exn}
    (hshape : record.SameShape other) (later : List (Event Exn))
    {frame : Frame Exn} (hok : FrameOk trace other frame) :
    FrameOk (trace ++ later) record frame := by
  have hall : ∀ call, AllRetired trace other call →
      AllRetired (trace ++ later) record call := by
    intro call hretired index hindex
    exact hretired.extended later index (hshape.count ▸ hindex)
  cases frame with
  | push call next count =>
      simpa only [FrameOk, hshape.kind, hshape.count, hshape.deferred] using hok
  | gate task via => exact ⟨hok.1.of_shape hshape, hok.2⟩
  | poll task via => exact Via.Fits.of_shape hshape hok
  | body task via prog => exact Via.Fits.of_shape hshape hok
  | wait task via next => exact Via.Fits.of_shape hshape hok
  | capture task via thrown =>
      exact ⟨hok.1.of_shape hshape, hok.2.1, List.mem_append_left _ hok.2.2⟩
  | cancel task via =>
      exact ⟨hok.1.of_shape hshape, hok.2.1, hok.2.2.extended later⟩
  | retire task via escaping =>
      exact ⟨hok.1.of_shape hshape, hok.2.1, fun thrown heq =>
        List.mem_append_left _ (hok.2.2 thrown heq)⟩
  | drain call role pc lastVictim =>
      cases role with
      | nested =>
          exact ⟨hshape.kind.trans hok.1, hshape.deferred ▸ hok.2.extended later⟩
      | producer => exact hshape.kind.trans hok
      | worker => trivial
  | join call => exact ⟨hshape.kind.trans hok.1, hall call hok.2⟩
  | rethrow call => exact ⟨hshape.kind ▸ hok.1, hall call hok.2⟩
  | ret call result =>
      exact ⟨hshape.kind.trans hok.1, hall call hok.2.1, fun thrown heq =>
        (hok.2.2 thrown heq).extended later⟩

/-! ## The two halves of the invariant -/

/-- One for a task of a call that was made. -/
def State.born (state : State Exn) (task : Task) : ℕ :=
  if task.index < (state.calls task.call).count then 1 else 0

/-- Every task and every call is in one place. -/
structure Places (participants : ℕ) (trace : List (Event Exn))
    (state : State Exn) : Prop where
  fresh : ∀ call, state.callCount ≤ call → state.calls call = .unused
  shaped : ∀ call, (state.calls call).kind ≠ .single ↔
    2 ≤ (state.calls call).count
  placed : ∀ task,
    state.total participants (Frame.places task) (isTask task) +
      retiredCount trace task = state.born task
  heldBack : ∀ task,
    state.total participants (Frame.holdsBack task) (isTask task) +
      (ranCount trace task + skippedCount trace task) = state.born task
  running : ∀ task,
    state.total participants (Frame.runs task) (fun _ => 0) +
      endedCount trace task = ranCount trace task
  owned : ∀ call,
    state.total participants (Frame.owns call) (fun _ => 0) +
      returnedCount trace call = if call < state.callCount then 1 else 0
  frames : ∀ slot, ∀ frame ∈ state.frames slot,
    frame.call < state.callCount ∧
      FrameOk trace (state.calls frame.call) frame
  tasks : ∀ slot, ∀ task ∈ state.deques slot,
    task.index < (state.calls task.call).deferred

/-- What the counters and flags of the calls say about the trace. -/
structure Ledger (participants : ℕ) (trace : List (Event Exn))
    (state : State Exn) : Prop where
  pending : ∀ call, (state.calls call).pendingTasks =
    (state.calls call).deferred - retiredBy trace .shared call
  own : ∀ call, (state.calls call).ownPending = retiredBy trace .own call
  counted : ∀ task via, .retired task via ∈ trace →
    (task.index < (state.calls task.call).deferred ↔ via = .own ∨ via = .shared)
  skips : ∀ task, .skipped task ∈ trace →
    Threw trace task.call ∨ state.stopRequested task.call = true
  cancelled : ∀ call, (state.calls call).forkJoinCancelled = true →
    Threw trace call
  captured : ∀ call thrown,
    (state.calls call).firstException = some thrown → Throws trace call thrown
  direct : ∀ call, (state.calls call).kind = .single →
    (state.calls call).firstException = none
  thrown : ∀ task thrown, .ended task (some thrown) ∈ trace →
    returnedCount trace task.call = 0 →
    (state.calls task.call).firstException.isSome ∨
      0 < state.total participants (Frame.throws task) (fun _ => 0)

structure Inv (participants : ℕ) (trace : List (Event Exn))
    (state : State Exn) : Prop where
  places : Places participants trace state
  ledger : Ledger participants trace state
  notified : ∀ slot call, state.workers slot = .notified call →
    call < state.callCount

/-! ## Exchanges keep `Places` -/

section Moves

variable {participants : ℕ} {trace : List (Event Exn)}
variable {before after : State Exn} {event : Option (Event Exn)}
variable {old new : List (Frame Exn)} {out inn : List Task}

theorem Places.exchange (hplaces : Places participants trace before)
    (hexchange : Exchange participants before after old new out inn)
    (hbalanced : Balanced old new out inn event)
    (hcount : after.callCount = before.callCount)
    (hfresh : ∀ call, before.callCount ≤ call →
      after.calls call = before.calls call)
    (hshape : ∀ call, (after.calls call).SameShape (before.calls call))
    (hnew : ∀ frame ∈ new, frame.call < before.callCount ∧
      FrameOk (trace ++ event.toList) (before.calls frame.call) frame)
    (hinn : ∀ task ∈ inn,
      task.index < (before.calls task.call).deferred) :
    Places participants (trace ++ event.toList) after where
  fresh := by
    intro call hcall
    rw [hcount] at hcall
    rw [hfresh call hcall, hplaces.fresh call hcall]
  shaped := by
    intro call
    rw [(hshape call).kind, (hshape call).count]
    exact hplaces.shaped call
  placed := by
    intro task
    have htotal := hexchange.total (Frame.places task) (isTask task)
    have hbefore := hplaces.placed task
    have hstep := hbalanced.placed task
    rw [retiredCount_append, State.born, (hshape task.call).count,
      ← State.born]
    omega
  heldBack := by
    intro task
    have htotal := hexchange.total (Frame.holdsBack task) (isTask task)
    have hbefore := hplaces.heldBack task
    have hstep := hbalanced.heldBack task
    rw [ranCount_append, skippedCount_append, State.born,
      (hshape task.call).count, ← State.born]
    omega
  running := by
    intro task
    have htotal := hexchange.total (Frame.runs task) fun _ => 0
    have hbefore := hplaces.running task
    have hstep := hbalanced.running task
    have hout : weigh (fun _ : Task => 0) out = 0 := by simp [weigh]
    have hinn : weigh (fun _ : Task => 0) inn = 0 := by simp [weigh]
    rw [endedCount_append, ranCount_append]
    omega
  owned := by
    intro call
    have htotal := hexchange.total (Frame.owns call) fun _ => 0
    have hbefore := hplaces.owned call
    have hstep := hbalanced.owned call
    have hout : weigh (fun _ : Task => 0) out = 0 := by simp [weigh]
    have hinn : weigh (fun _ : Task => 0) inn = 0 := by simp [weigh]
    rw [returnedCount_append, hcount]
    omega
  frames := by
    intro slot frame hframe
    rw [hcount]
    rcases hexchange.frames slot frame hframe with hkept | hnewFrame
    · obtain ⟨hknown, hok⟩ := hplaces.frames slot frame hkept
      exact ⟨hknown, hok.extended (hshape frame.call) event.toList⟩
    · obtain ⟨hknown, hok⟩ := hnew frame hnewFrame
      refine ⟨hknown, ?_⟩
      simpa using hok.extended (hshape frame.call) []
  tasks := by
    intro slot task htask
    rw [(hshape task.call).deferred]
    rcases hexchange.tasks slot task htask with hkept | hpushed
    · exact hplaces.tasks slot task hkept
    · exact hinn task hpushed

end Moves

/-! ## What a frame at hand says -/

theorem State.le_total {participants slot : ℕ} (hslot : slot < participants)
    {state : State Exn} {frame : Frame Exn} (hframe : frame ∈ state.frames slot)
    (frameWeight : Frame Exn → ℕ) (taskWeight : Task → ℕ) :
    frameWeight frame ≤ state.total participants frameWeight taskWeight :=
  (le_census hslot frameWeight hframe).trans (Nat.le_add_right _ _)

section AtHand

variable {participants : ℕ} {trace : List (Event Exn)} {state : State Exn}

theorem Places.retiredCount_le (hplaces : Places participants trace state)
    (task : Task) : retiredCount trace task ≤ 1 := by
  have := hplaces.placed task
  unfold State.born at this
  split at this <;> omega

theorem Places.ranCount_le (hplaces : Places participants trace state)
    (task : Task) : ranCount trace task ≤ 1 := by
  have := hplaces.heldBack task
  unfold State.born at this
  split at this <;> omega

/-- Only tasks of calls that were made appear in the trace. -/
theorem Places.index_lt_of_ended (hplaces : Places participants trace state)
    {task : Task} {result : Option Exn} (hevent : .ended task result ∈ trace) :
    task.index < (state.calls task.call).count := by
  have hended := endedCount_pos hevent
  have hrunning := hplaces.running task
  have hheld := hplaces.heldBack task
  unfold State.born at hheld
  split at hheld
  · assumption
  · omega

variable {slot : ℕ} (hslot : slot < participants) {frame : Frame Exn}

include hslot in
theorem Places.unretired (hplaces : Places participants trace state)
    (hframe : frame ∈ state.frames slot) {task : Task}
    (hplace : 0 < frame.places task) : retiredCount trace task = 0 := by
  have hle := State.le_total hslot hframe (Frame.places task) (isTask task)
  have := hplaces.placed task
  unfold State.born at this
  split at this <;> omega

include hslot in
theorem Places.unreturned (hplaces : Places participants trace state)
    (hframe : frame ∈ state.frames slot) {call : ℕ}
    (howns : 0 < frame.owns call) : returnedCount trace call = 0 := by
  have hle := State.le_total hslot hframe (Frame.owns call) fun _ => 0
  have := hplaces.owned call
  split at this <;> omega

end AtHand

/-! ## The counters -/

theorem retiredBy_append (trace : List (Event Exn))
    (event : Option (Event Exn)) (via : Via) (call : ℕ) :
    retiredBy (trace ++ event.toList) via call =
      retiredBy trace via call + retiredBy event.toList via call := by
  simp [retiredBy]

/-- The tasks for the deque that have retired, counted by task or by way. -/
theorem sum_retiredCount (trace : List (Event Exn)) (call deferred : ℕ)
    (hcounted : ∀ task via, .retired task via ∈ trace → task.call = call →
      (task.index < deferred ↔ via = .own ∨ via = .shared)) :
    ∑ index ∈ Finset.range deferred, retiredCount trace ⟨call, index⟩ =
      retiredBy trace .own call + retiredBy trace .shared call := by
  induction trace with
  | nil => simp [retiredCount, retiredBy]
  | cons event trace ih =>
      have hrest := ih fun task via hevent =>
        hcounted task via (List.mem_cons_of_mem _ hevent)
      have hsplit : ∀ index, retiredCount (event :: trace) ⟨call, index⟩ =
          retiredCount trace ⟨call, index⟩ +
            retiredCount [event] ⟨call, index⟩ := by
        intro index
        simp only [retiredCount, List.countP_cons, List.countP_nil]
        omega
      have hways : ∀ via, retiredBy (event :: trace) via call =
          retiredBy trace via call + retiredBy [event] via call := by
        intro via
        simp only [retiredBy, List.countP_cons, List.countP_nil]
        omega
      have hone : ∑ index ∈ Finset.range deferred,
            retiredCount [event] ⟨call, index⟩ =
          retiredBy [event] .own call + retiredBy [event] .shared call := by
        cases event with
        | retired task via =>
            by_cases hcall : task.call = call
            · have hiff := hcounted task via List.mem_cons_self hcall
              have hsum : ∀ index, retiredCount
                  [(.retired task via : Event Exn)] ⟨call, index⟩ =
                    if task.index = index then 1 else 0 := by
                intro index
                rcases task with ⟨taskCall, taskIndex⟩
                obtain rfl : taskCall = call := hcall
                simp [retiredCount, Event.isRetired, List.countP_cons]
              simp only [hsum, Finset.sum_ite_eq, Finset.mem_range]
              cases via <;>
                simp_all [retiredBy, List.countP_cons]
            · have hsum : ∀ index, retiredCount
                  [(.retired task via : Event Exn)] ⟨call, index⟩ = 0 := by
                intro index
                rcases task with ⟨taskCall, taskIndex⟩
                have hne : taskCall ≠ call := hcall
                simp [retiredCount, Event.isRetired, hne]
              simp [hsum, retiredBy, hcall]
        | _ => simp [retiredCount, Event.isRetired, retiredBy]
      rw [Finset.sum_congr rfl fun index _ => hsplit index,
        Finset.sum_add_distrib, hrest, hone, hways, hways]
      omega

/-- The tasks of a call that go through the deque and have not retired. -/
def unretired (trace : List (Event Exn)) (record : Call Exn) (call : ℕ) :
    Finset ℕ :=
  (Finset.range record.deferred).filter fun index =>
    retiredCount trace ⟨call, index⟩ = 0

theorem Inv.effective {participants : ℕ} {trace : List (Event Exn)}
    {state : State Exn} (hinv : Inv participants trace state) (call : ℕ) :
    (state.calls call).pendingTasks - (state.calls call).ownPending =
      (unretired trace (state.calls call) call).card := by
  have hsum := sum_retiredCount trace call (state.calls call).deferred
    (by
      rintro task via hevent rfl
      exact hinv.ledger.counted task via hevent)
  have hcard : (unretired trace (state.calls call) call).card +
      ∑ index ∈ Finset.range (state.calls call).deferred,
        retiredCount trace ⟨call, index⟩ = (state.calls call).deferred := by
    have heach : ∀ index, (if retiredCount trace ⟨call, index⟩ = 0 then 1 else 0) +
        retiredCount trace ⟨call, index⟩ = 1 := by
      intro index
      have := hinv.places.retiredCount_le ⟨call, index⟩
      split <;> omega
    rw [unretired, Finset.card_filter, ← Finset.sum_add_distrib,
      Finset.sum_congr rfl fun index _ => heach index]
    simp
  rw [hinv.ledger.pending call, hinv.ledger.own call]
  omega

/-- A drain that sees nothing pending is right. -/
theorem Inv.drained {participants : ℕ} {trace : List (Event Exn)}
    {state : State Exn} (hinv : Inv participants trace state) {call : ℕ}
    {role : Role} (heffective : (state.calls call).effective role ≤ 0) :
    ∀ index < (state.calls call).deferred, Retired trace ⟨call, index⟩ := by
  have hown := hinv.ledger.own call
  have hle : (state.calls call).pendingTasks -
      (state.calls call).ownPending ≤ 0 := by
    unfold Call.effective at heffective
    split at heffective <;> omega
  have hcard := hinv.effective call
  have hempty : (unretired trace (state.calls call) call) = ∅ := by
    rw [← Finset.card_eq_zero]
    omega
  intro index hindex
  apply retired_of_count
  by_contra hzero
  have hmem : index ∈ unretired trace (state.calls call) call := by
    simp only [unretired, Finset.mem_filter, Finset.mem_range]
    exact ⟨hindex, by omega⟩
  rw [hempty] at hmem
  exact absurd hmem (Finset.notMem_empty index)

end Citor.ForkJoin
