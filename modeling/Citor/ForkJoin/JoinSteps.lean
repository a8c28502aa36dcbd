import Citor.ForkJoin.JoinInvariant

/-!
# Every step keeps the invariant

A step is an exchange of frames and tasks, so `Places` follows from weighing
what it exchanges; `Ledger` changes where the step counts, captures or cancels.
-/

namespace Citor.ForkJoin

open Citor.Interleaving Citor.Census

variable {Exn : Type}
variable {participants : ℕ} {trace : List (Event Exn)}
variable {before after : State Exn} {event : Option (Event Exn)}
variable {old new : List (Frame Exn)} {out inn : List Task}

/-! ## The ledger of a step -/

/-- What a step may do to the counters and flags. -/
structure LedgerStep (participants : ℕ) (trace : List (Event Exn))
    (before after : State Exn) (event : Option (Event Exn)) : Prop where
  shape : ∀ call, (after.calls call).SameShape (before.calls call)
  stopped : ∀ token, before.stopped token = true → after.stopped token = true
  pending : ∀ call, (after.calls call).pendingTasks +
    retiredBy event.toList .shared call = (before.calls call).pendingTasks
  own : ∀ call, (after.calls call).ownPending =
    (before.calls call).ownPending + retiredBy event.toList .own call
  counted : ∀ task via, event = some (.retired task via) →
    (task.index < (before.calls task.call).deferred ↔
      via = .own ∨ via = .shared)
  skips : ∀ task, event = some (.skipped task) →
    Threw trace task.call ∨ before.stopRequested task.call = true
  cancelled : ∀ call, (after.calls call).forkJoinCancelled = true →
    (before.calls call).forkJoinCancelled = true ∨ Threw trace call
  captured : ∀ call thrown,
    (after.calls call).firstException = some thrown →
      (before.calls call).firstException = some thrown ∨
        Throws trace call thrown
  direct : ∀ call, (before.calls call).kind = .single →
    (before.calls call).firstException = none →
    (after.calls call).firstException = none
  thrown : ∀ task thrown,
    .ended task (some thrown) ∈ trace ++ event.toList →
    returnedCount (trace ++ event.toList) task.call = 0 →
    (after.calls task.call).firstException.isSome ∨
      0 < after.total participants (Frame.throws task) (fun _ => 0)

theorem stopRequested_mono (hshape : ∀ call,
      (after.calls call).SameShape (before.calls call))
    (hstopped : ∀ token, before.stopped token = true →
      after.stopped token = true) {call : ℕ}
    (hrequested : before.stopRequested call = true) :
    after.stopRequested call = true := by
  unfold State.stopRequested at hrequested ⊢
  rw [(hshape call).token]
  split at hrequested
  · contradiction
  next token htoken => simpa only [htoken] using hstopped token hrequested

theorem mem_append_event {trace : List (Event Exn)}
    {event : Option (Event Exn)} {entry : Event Exn}
    (hentry : entry ∈ trace ++ event.toList) :
    entry ∈ trace ∨ event = some entry := by
  rcases List.mem_append.1 hentry with hold | hnew
  · exact .inl hold
  · exact .inr (Option.mem_toList.1 hnew)

theorem Ledger.step (hledger : Ledger participants trace before)
    (hstep : LedgerStep participants trace before after event) :
    Ledger participants (trace ++ event.toList) after where
  pending := by
    intro call
    have hpending := hstep.pending call
    have hbefore := hledger.pending call
    rw [retiredBy_append, (hstep.shape call).deferred]
    push_cast
    omega
  own := by
    intro call
    have hown := hstep.own call
    have hbefore := hledger.own call
    rw [retiredBy_append]
    push_cast
    omega
  counted := by
    intro task via hevent
    rw [(hstep.shape task.call).deferred]
    rcases mem_append_event hevent with hold | hnew
    · exact hledger.counted task via hold
    · exact hstep.counted task via hnew
  skips := by
    intro task hevent
    have hold : Threw trace task.call ∨ before.stopRequested task.call = true := by
      rcases mem_append_event hevent with hold | hnew
      · exact hledger.skips task hold
      · exact hstep.skips task hnew
    exact hold.imp (fun hthrew => hthrew.extended _)
      (stopRequested_mono hstep.shape hstep.stopped)
  cancelled := by
    intro call hcancelled
    have hthrew : Threw trace call :=
      (hstep.cancelled call hcancelled).elim (hledger.cancelled call) id
    exact hthrew.extended _
  captured := by
    intro call thrown hcaptured
    have hthrows : Throws trace call thrown :=
      (hstep.captured call thrown hcaptured).elim
        (hledger.captured call thrown) id
    exact hthrows.extended _
  direct := by
    intro call hkind
    rw [(hstep.shape call).kind] at hkind
    exact hstep.direct call hkind (hledger.direct call hkind)
  thrown := hstep.thrown

/-- Exceptions under way are not lost: they are stored, or the call returns
with them. -/
theorem Ledger.thrown_exchange (hledger : Ledger participants trace before)
    (hexchange : Exchange participants before after old new out inn)
    (hflow : ∀ task, weigh (Frame.throws task) old ≤
        weigh (Frame.throws task) new ∨
      (after.calls task.call).firstException.isSome ∨
      0 < returnedCount event.toList task.call)
    (hkept : ∀ call, (before.calls call).firstException.isSome →
      (after.calls call).firstException.isSome ∨
        0 < returnedCount event.toList call)
    (hended : ∀ task thrown, event = some (.ended task (some thrown)) →
      weigh (Frame.throws task) old < weigh (Frame.throws task) new)
    (task : Task) (thrown : Exn)
    (hevent : .ended task (some thrown) ∈ trace ++ event.toList)
    (hreturned : returnedCount (trace ++ event.toList) task.call = 0) :
    (after.calls task.call).firstException.isSome ∨
      0 < after.total participants (Frame.throws task) (fun _ => 0) := by
  rw [returnedCount_append] at hreturned
  have htotal := hexchange.total (Frame.throws task) fun _ => 0
  have hout : weigh (fun _ : Task => 0) out = 0 := by simp [weigh]
  have hinn : weigh (fun _ : Task => 0) inn = 0 := by simp [weigh]
  rcases mem_append_event hevent with hold | hnew
  · rcases hledger.thrown task thrown hold (by omega) with hstored | hunderway
    · have := hkept task.call hstored
      exact .inl (this.resolve_right (by omega))
    · rcases hflow task with hle | hstored | hreturns
      · exact .inr (by omega)
      · exact .inl hstored
      · omega
  · have := hended task thrown hnew
    exact .inr (by omega)

/-- A step that leaves every call alone. -/
theorem LedgerStep.of_calls (hledger : Ledger participants trace before)
    (hexchange : Exchange participants before after old new out inn)
    (hcalls : after.calls = before.calls)
    (hstopped : after.stopped = before.stopped)
    (hcounted : ∀ task via, event = some (.retired task via) →
      ¬ task.index < (before.calls task.call).deferred ∧
        via ≠ .own ∧ via ≠ .shared)
    (hskips : ∀ task, event = some (.skipped task) →
      Threw trace task.call ∨ before.stopRequested task.call = true)
    (hflow : ∀ task, weigh (Frame.throws task) old ≤
        weigh (Frame.throws task) new ∨
      0 < returnedCount event.toList task.call)
    (hended : ∀ task thrown, event = some (.ended task (some thrown)) →
      weigh (Frame.throws task) old < weigh (Frame.throws task) new) :
    LedgerStep participants trace before after event := by
  have hways : ∀ via call, via = .own ∨ via = .shared →
      retiredBy event.toList via call = 0 := by
    intro via call hvia
    rcases event with _ | (_ | _ | _ | ⟨task, other⟩ | _) <;>
      try rfl
    have hother := (hcounted task other rfl).2
    have hne : other ≠ via := by rintro rfl; tauto
    simp [retiredBy, hne]
  exact
    { shape := fun call => by rw [hcalls]; exact .refl _
      stopped := fun token => by rw [hstopped]; exact id
      pending := fun call => by simp [hcalls, hways .shared call]
      own := fun call => by simp [hcalls, hways .own call]
      counted := fun task via heq => by
        have := hcounted task via heq
        tauto
      skips := hskips
      cancelled := fun call => by rw [hcalls]; exact .inl
      captured := fun call thrown => by rw [hcalls]; exact .inl
      direct := fun call _ => by rw [hcalls]; exact id
      thrown := hledger.thrown_exchange hexchange
        (fun task => (hflow task).imp_right .inr)
        (fun call hstored => .inl (by rwa [hcalls])) hended }

/-! ## Steps that replace the top of a stack -/

/-- Events that no counter, flag or exception follows. -/
def Event.Quiet : Option (Event Exn) → Prop
  | none => True
  | some (.ran _) => True
  | _ => False

/-- The step changes neither calls nor tokens, and nothing but what it
exchanges. -/
theorem Inv.quiet (hinv : Inv participants trace before)
    (hexchange : Exchange participants before after old new out inn)
    (hbalanced : Balanced old new out inn event)
    (hquiet : Event.Quiet event)
    (hcalls : after.calls = before.calls)
    (hcount : after.callCount = before.callCount)
    (hstopped : after.stopped = before.stopped)
    (hworkers : after.workers = before.workers)
    (hflow : ∀ task, weigh (Frame.throws task) old ≤
      weigh (Frame.throws task) new)
    (hnew : ∀ frame ∈ new, frame.call < before.callCount ∧
      FrameOk (trace ++ event.toList) (before.calls frame.call) frame)
    (hinn : ∀ task ∈ inn,
      task.index < (before.calls task.call).deferred) :
    Inv participants (trace ++ event.toList) after := by
  refine ⟨hinv.places.exchange hexchange hbalanced hcount
    (fun call _ => congrFun hcalls call)
    (fun call => congrFun hcalls call ▸ .refl _) hnew hinn, ?_,
    by rw [hworkers, hcount]; exact hinv.notified⟩
  refine hinv.ledger.step (.of_calls hinv.ledger hexchange hcalls hstopped
    ?_ ?_ (fun task => .inl (hflow task)) ?_)
  · rintro task via rfl
    exact hquiet.elim
  · rintro task rfl
    exact hquiet.elim
  · rintro task thrown rfl
    exact hquiet.elim

variable {slot : ℕ} {rest : List (Frame Exn)}

theorem exchange_top (hslot : slot < participants) {frame : Frame Exn}
    (htop : before.frames slot = frame :: rest) (new : List (Frame Exn)) :
    Exchange participants before (before.setFrames slot (new ++ rest))
      [frame] new [] [] :=
  exchange_of_frames hslot htop rfl rfl

/-- A quiet step of one slot that touches no deque. -/
theorem Inv.quietTop (hinv : Inv participants trace before)
    (hslot : slot < participants) {frame : Frame Exn}
    (htop : before.frames slot = frame :: rest)
    (new : List (Frame Exn)) (hbalanced : Balanced [frame] new [] [] event)
    (hquiet : Event.Quiet event)
    (hflow : ∀ task, frame.throws task ≤ weigh (Frame.throws task) new)
    (hnew : ∀ frame ∈ new, frame.call < before.callCount ∧
      FrameOk (trace ++ event.toList) (before.calls frame.call) frame) :
    Inv participants (trace ++ event.toList)
      (before.setFrames slot (new ++ rest)) :=
  hinv.quiet (exchange_top hslot htop new) hbalanced hquiet rfl rfl rfl rfl
    (by simpa using hflow) hnew (by simp)

/-- Of the workers' phases only the notified calls matter. -/
theorem Inv.workers (hinv : Inv participants trace before)
    (workers : ℕ → WorkerPhase) (hnotified : ∀ slot call,
      workers slot = .notified call → call < before.callCount) :
    Inv participants trace { before with workers := workers } where
  places := ⟨hinv.places.fresh, hinv.places.shaped, hinv.places.placed,
    hinv.places.heldBack, hinv.places.running, hinv.places.owned,
    hinv.places.frames, hinv.places.tasks⟩
  ledger := ⟨hinv.ledger.pending, hinv.ledger.own, hinv.ledger.counted,
    hinv.ledger.skips, hinv.ledger.cancelled, hinv.ledger.captured,
    hinv.ledger.direct, hinv.ledger.thrown⟩
  notified := hnotified

/-- What the invariant says about the frame on top. -/
theorem Inv.top (hinv : Inv participants trace before) {frame : Frame Exn}
    (htop : before.frames slot = frame :: rest) :
    frame ∈ before.frames slot ∧ frame.call < before.callCount ∧
      FrameOk trace (before.calls frame.call) frame := by
  have hmem : frame ∈ before.frames slot := htop ▸ List.mem_cons_self
  exact ⟨hmem, hinv.places.frames slot frame hmem⟩

/-! ## Pushing -/

theorem Call.deferred_le (record : Call Exn) :
    record.deferred ≤ record.count := by
  unfold Call.deferred
  split <;> omega

theorem inv_push (hinv : Inv participants trace before)
    (hslot : slot < participants) {call next count : ℕ}
    (htop : before.frames slot = .push call next count :: rest)
    (hnext : next < (before.calls call).deferred) :
    Inv participants (trace ++ (none : Option (Event Exn)).toList)
      ((before.setDeque slot (before.deques slot ++ [⟨call, next⟩])).setFrames
        slot (.push call (next + 1) count :: rest)) := by
  obtain ⟨-, hknown, hkind, hcount, -⟩ := hinv.top htop
  have hlt : next < count := by
    have := (before.calls call).deferred_le
    simp only [Frame.call] at hcount
    omega
  have hexchange : Exchange participants before
      ((before.setDeque slot (before.deques slot ++ [⟨call, next⟩])).setFrames
        slot (.push call (next + 1) count :: rest))
      [.push call next count] [.push call (next + 1) count]
      [] [⟨call, next⟩] :=
    exchange_of_updates hslot hslot htop rfl rfl (by simp)
  refine hinv.quiet hexchange ?_ trivial rfl rfl rfl rfl ?_ ?_ ?_
  · constructor <;> intro task <;> simp [unpushed_push _ hlt]
  · simp
  · simpa using ⟨hknown, hkind, hcount, hnext⟩
  · simpa using hnext

theorem inv_tail (hinv : Inv participants trace before)
    (hslot : slot < participants) {call next count : ℕ}
    (htop : before.frames slot = .push call next count :: rest)
    (hnext : ¬ next < (before.calls call).deferred)
    (hkind : (before.calls call).kind = .nested) :
    Inv participants (trace ++ (none : Option (Event Exn)).toList)
      (before.setFrames slot (.gate ⟨call, next⟩ .tail :: rest)) := by
  obtain ⟨-, hknown, hok⟩ := hinv.top htop
  simp only [Frame.call, FrameOk] at hknown hok
  have hshaped := (hinv.places.shaped call).1 hok.1
  have hdeferred : (before.calls call).deferred =
      (before.calls call).count - 1 := by
    simp [Call.deferred, hkind]
  have hindex : next = (before.calls call).deferred := by omega
  obtain rfl : count = next + 1 := by omega
  refine hinv.quietTop hslot htop [.gate ⟨call, next⟩ .tail]
    ?_ trivial ?_ ?_
  · constructor <;> intro task <;> simp [unpushed_tail]
  · simp
  · simp only [List.mem_singleton, forall_eq]
    exact ⟨hknown, ⟨hkind, hindex⟩, by simp⟩

theorem inv_publish (hinv : Inv participants trace before)
    (hslot : slot < participants) {call next count : ℕ}
    (htop : before.frames slot = .push call next count :: rest)
    (hnext : ¬ next < (before.calls call).deferred)
    (hkind : (before.calls call).kind = .outer) :
    Inv participants (trace ++ (none : Option (Event Exn)).toList)
      (before.setFrames slot (.drain call .producer .check none :: rest)) := by
  obtain ⟨-, hknown, hok⟩ := hinv.top htop
  simp only [Frame.call, FrameOk] at hknown hok
  have hdeferred : (before.calls call).deferred =
      (before.calls call).count := by
    simp [Call.deferred, hkind]
  obtain rfl : count = next := by omega
  refine hinv.quietTop hslot htop
    [.drain call .producer .check none] ?_ trivial ?_ ?_
  · constructor <;> intro task <;> simp [unpushed_all]
  · simp
  · simp only [List.mem_singleton, forall_eq]
    exact ⟨hknown, hkind⟩

/-! ## Running a task -/

theorem inv_skip (hinv : Inv participants trace before)
    (hslot : slot < participants) {task : Task} {via : Via}
    {frame : Frame Exn}
    (hframe : frame = .gate task via ∨ frame = .poll task via)
    (htop : before.frames slot = frame :: rest)
    (hskip : Threw trace task.call ∨ before.stopRequested task.call = true) :
    Inv participants (trace ++ (some (.skipped task) : Option _).toList)
      (before.setFrames slot (.retire task via none :: rest)) := by
  obtain ⟨-, hknown, hok⟩ := hinv.top htop
  have hcall : frame.call = task.call := by
    rcases hframe with rfl | rfl <;> rfl
  have hfits : via.Fits (before.calls task.call) task.index := by
    rcases hframe with rfl | rfl
    · exact hok.1
    · exact hok
  have hexchange := exchange_top hslot htop [.retire task via none]
  refine ⟨hinv.places.exchange hexchange ?_ rfl (fun _ _ => rfl)
    (fun _ => .refl _) ?_ (by simp), hinv.ledger.step
    (.of_calls hinv.ledger hexchange rfl rfl ?_ ?_ ?_ ?_), hinv.notified⟩
  · rcases hframe with rfl | rfl <;> constructor <;> intro other <;>
      simp [isTask]
  · simp only [List.mem_singleton, forall_eq]
    exact ⟨lt_of_eq_of_lt hcall.symm hknown, hfits, fun _ => rfl, by simp⟩
  · simp
  · intro other heq
    obtain rfl : task = other := by simpa using heq
    exact hskip
  · rcases hframe with rfl | rfl <;> simp
  · simp

theorem inv_gate (hinv : Inv participants trace before)
    (hslot : slot < participants) {task : Task} {via : Via}
    (htop : before.frames slot = .gate task via :: rest) :
    Inv participants (trace ++ (none : Option (Event Exn)).toList)
      (before.setFrames slot (.poll task via :: rest)) := by
  obtain ⟨-, hknown, hok⟩ := hinv.top htop
  refine hinv.quietTop hslot htop [.poll task via] ?_ trivial ?_ ?_
  · constructor <;> intro other <;> simp
  · simp
  · simp only [List.mem_singleton, forall_eq]
    exact ⟨hknown, hok.1⟩

theorem inv_run (hinv : Inv participants trace before)
    (hslot : slot < participants) {task : Task} {via : Via}
    (htop : before.frames slot = .poll task via :: rest) (prog : Prog Exn) :
    Inv participants (trace ++ (some (.ran task) : Option _).toList)
      (before.setFrames slot (.body task via prog :: rest)) := by
  obtain ⟨-, hknown, hok⟩ := hinv.top htop
  refine hinv.quietTop hslot htop [.body task via prog]
    ?_ trivial ?_ ?_
  · constructor <;> intro other <;> simp [isTask]
  · simp
  · simp only [List.mem_singleton, forall_eq]
    exact ⟨hknown, hok⟩

theorem inv_bodyPoll (hinv : Inv participants trace before)
    (hslot : slot < participants) {task : Task} {via : Via}
    {prog : Prog Exn}
    (htop : before.frames slot = .body task via prog :: rest)
    (next : Prog Exn) :
    Inv participants (trace ++ (none : Option (Event Exn)).toList)
      (before.setFrames slot (.body task via next :: rest)) := by
  obtain ⟨-, hknown, hok⟩ := hinv.top htop
  refine hinv.quietTop hslot htop [.body task via next]
    ?_ trivial ?_ ?_
  · constructor <;> intro other <;> simp
  · simp
  · simp only [List.mem_singleton, forall_eq]
    exact ⟨hknown, hok⟩

/-- The end of a body, whatever comes next for the task. -/
theorem inv_end (hinv : Inv participants trace before)
    (hslot : slot < participants) {task : Task} {via : Via}
    {prog : Prog Exn} {result : Option Exn} {next : Frame Exn}
    (htop : before.frames slot = .body task via prog :: rest)
    (hnext : via = .single ∧ next = .retire task .single result ∨
      via ≠ .single ∧ (result = none ∧ next = .retire task via none ∨
        ∃ thrown, result = some thrown ∧ next = .capture task via thrown)) :
    Inv participants (trace ++ (some (.ended task result) : Option _).toList)
      (before.setFrames slot (next :: rest)) := by
  obtain ⟨-, hknown, hok⟩ := hinv.top htop
  have hexchange := exchange_top hslot htop [next]
  have hevent : ∀ thrown, result = some thrown → .ended task (some thrown) ∈
      trace ++ (some (.ended task result) : Option _).toList := by
    rintro thrown rfl
    simp
  refine ⟨hinv.places.exchange hexchange ?_ rfl (fun _ _ => rfl)
    (fun _ => .refl _) ?_ (by simp), hinv.ledger.step
    (.of_calls hinv.ledger hexchange rfl rfl ?_ ?_ ?_ ?_), hinv.notified⟩
  · rcases hnext with ⟨rfl, rfl⟩ | ⟨-, ⟨rfl, rfl⟩ | ⟨thrown, rfl, rfl⟩⟩ <;>
      constructor <;> intro other <;> simp [isTask]
  · simp only [List.mem_singleton, forall_eq]
    rcases hnext with ⟨rfl, rfl⟩ | ⟨hvia, ⟨rfl, rfl⟩ | ⟨thrown, rfl, rfl⟩⟩
    · exact ⟨hknown, hok, by simp, hevent⟩
    · exact ⟨hknown, hok, by simp, by simp⟩
    · exact ⟨hknown, hok, hvia, hevent thrown rfl⟩
  · simp
  · simp
  · simp
  · intro other thrown heq
    obtain ⟨rfl, rfl⟩ : task = other ∧ result = some thrown := by
      simpa using heq
    rcases hnext with ⟨rfl, rfl⟩ | ⟨-, ⟨hnone, -⟩ | ⟨_, -, rfl⟩⟩
    · simp [isTask]
    · simp at hnone
    · simp [isTask]

/-! ## Exceptions and retirement -/

/-- A step that rewrites the counters or flags of one call. -/
theorem Inv.setCall (hinv : Inv participants trace before)
    (hslot : slot < participants) (old new : List (Frame Exn))
    (htop : before.frames slot = old ++ rest) {call : ℕ} {record : Call Exn}
    (hknown : call < before.callCount)
    (hshape : record.SameShape (before.calls call))
    (hbalanced : Balanced old new [] [] event)
    (hnew : ∀ frame ∈ new, frame.call < before.callCount ∧
      FrameOk (trace ++ event.toList) (before.calls frame.call) frame)
    (hpending : record.pendingTasks + retiredBy event.toList .shared call =
      (before.calls call).pendingTasks)
    (hown : record.ownPending = (before.calls call).ownPending +
      retiredBy event.toList .own call)
    (hothers : ∀ via other, other ≠ call →
      retiredBy event.toList via other = 0)
    (hcounted : ∀ task via, event = some (.retired task via) →
      (task.index < (before.calls task.call).deferred ↔
        via = .own ∨ via = .shared))
    (hevent : ∀ task, event ≠ some (.skipped task) ∧
      ∀ result, event ≠ some (.ended task result))
    (hcancelled : record.forkJoinCancelled = true →
      (before.calls call).forkJoinCancelled = true ∨ Threw trace call)
    (hcaptured : ∀ thrown, record.firstException = some thrown →
      (before.calls call).firstException = some thrown ∨
        Throws trace call thrown)
    (hdirect : (before.calls call).kind = .single →
      (before.calls call).firstException = none →
      record.firstException = none)
    (hflow : ∀ task, weigh (Frame.throws task) old ≤
        weigh (Frame.throws task) new ∨
      task.call = call ∧ record.firstException.isSome ∨
      0 < returnedCount event.toList task.call)
    (hkept : (before.calls call).firstException.isSome →
      record.firstException.isSome ∨ 0 < returnedCount event.toList call) :
    Inv participants (trace ++ event.toList)
      ((before.setCall call record).setFrames slot (new ++ rest)) := by
  have hself : ((before.setCall call record).setFrames slot
      (new ++ rest)).calls call = record := by
    simp [State.setFrames, State.setCall]
  have hother : ∀ other ≠ call, ((before.setCall call record).setFrames slot
      (new ++ rest)).calls other = before.calls other := by
    intro other hne
    simp [State.setFrames, State.setCall, hne]
  have hshapes : ∀ other, (((before.setCall call record).setFrames slot
      (new ++ rest)).calls other).SameShape (before.calls other) := by
    intro other
    by_cases hne : other = call
    · subst hne
      rwa [hself]
    · rw [hother other hne]
      exact .refl _
  have hexchange : Exchange participants before
      ((before.setCall call record).setFrames slot (new ++ rest))
      old new [] [] :=
    exchange_of_frames hslot htop rfl rfl
  refine ⟨hinv.places.exchange hexchange hbalanced rfl
    (fun other hfresh => hother other (by omega)) hshapes hnew (by simp),
    hinv.ledger.step ⟨hshapes, fun _ => id, ?_, ?_, hcounted,
      fun task heq => absurd heq (hevent task).1, ?_, ?_, ?_, ?_⟩,
    hinv.notified⟩
  · intro other
    by_cases hne : other = call
    · subst hne
      rwa [hself]
    · simp [hother other hne, hothers .shared other hne]
  · intro other
    by_cases hne : other = call
    · subst hne
      rwa [hself]
    · simp [hother other hne, hothers .own other hne]
  · intro other
    by_cases hne : other = call
    · subst hne
      rwa [hself]
    · rw [hother other hne]
      exact .inl
  · intro other thrown
    by_cases hne : other = call
    · subst hne
      rw [hself]
      exact hcaptured thrown
    · rw [hother other hne]
      exact .inl
  · intro other
    by_cases hne : other = call
    · subst hne
      rwa [hself]
    · rw [hother other hne]
      exact fun _ => id
  · refine hinv.ledger.thrown_exchange hexchange (fun task => ?_)
      (fun other => ?_)
      (fun task thrown heq => absurd heq ((hevent task).2 _))
    · refine (hflow task).imp_right fun hrest => hrest.imp_left ?_
      rintro ⟨rfl, hstored⟩
      rwa [hself]
    · by_cases hne : other = call
      · subst hne
        rwa [hself]
      · rw [hother other hne]
        exact .inl

/-- Directly run tasks have no capture frame, so a stored exception belongs to
a call with a join. -/
theorem Via.Fits.kind {record : Call Exn} {index : ℕ} {via : Via}
    (hfits : via.Fits record index) (hvia : via ≠ .single) :
    record.kind ≠ .single := by
  intro hkind
  cases via with
  | own => simp [Via.Fits, hkind] at hfits
  | shared => simp [Via.Fits, Call.deferred, hkind] at hfits
  | tail => simp [Via.Fits, hkind] at hfits
  | single => exact hvia rfl

theorem inv_capture (hinv : Inv participants trace before)
    (hslot : slot < participants) {task : Task} {via : Via} {thrown : Exn}
    (htop : before.frames slot = .capture task via thrown :: rest) :
    Inv participants (trace ++ (none : Option (Event Exn)).toList)
      ((before.setCall task.call
        { before.calls task.call with
          firstException := (before.calls task.call).firstException <|>
            some thrown }).setFrames slot (.cancel task via :: rest)) := by
  obtain ⟨-, hknown, hfits, hvia, hevent⟩ := hinv.top htop
  have hthrows : Throws trace task.call thrown := ⟨task.index, hevent⟩
  have hsome : ((before.calls task.call).firstException <|>
      some thrown).isSome := by
    cases (before.calls task.call).firstException <;> rfl
  refine hinv.setCall hslot [.capture task via thrown] [.cancel task via] htop
    hknown ⟨rfl, rfl, rfl, rfl, rfl⟩ ?_ ?_ (by simp [retiredBy])
    (by simp [retiredBy]) (by simp [retiredBy]) (by simp) (by simp) .inl
    ?_ ?_ ?_ (fun _ => .inl hsome)
  · constructor <;> intro other <;> simp
  · simp only [List.mem_singleton, forall_eq]
    exact ⟨hknown, hfits, hvia, (show Threw trace task.call from
      ⟨thrown, hthrows⟩).extended _⟩
  · intro stored hstored
    cases hfirst : (before.calls task.call).firstException with
    | none =>
        obtain rfl : thrown = stored := by simpa [hfirst] using hstored
        exact .inr hthrows
    | some first =>
        left
        simpa [hfirst] using hstored
  · exact fun hkind => absurd hkind (hfits.kind hvia)
  · intro other
    by_cases hother : other = task
    · exact .inr (.inl ⟨hother ▸ rfl, hsome⟩)
    · exact .inl (by simp [isTask, Ne.symm hother])

theorem inv_cancel (hinv : Inv participants trace before)
    (hslot : slot < participants) {task : Task} {via : Via}
    (htop : before.frames slot = .cancel task via :: rest) :
    Inv participants (trace ++ (none : Option (Event Exn)).toList)
      ((before.setCall task.call
        { before.calls task.call with forkJoinCancelled := true }).setFrames
          slot (.retire task via none :: rest)) := by
  obtain ⟨-, hknown, hfits, hvia, hthrew⟩ := hinv.top htop
  refine hinv.setCall hslot [.cancel task via] [.retire task via none] htop
    hknown ⟨rfl, rfl, rfl, rfl, rfl⟩ ?_ ?_ (by simp [retiredBy])
    (by simp [retiredBy]) (by simp [retiredBy]) (by simp) (by simp)
    (fun _ => .inr hthrew) (fun _ => .inl) (fun _ => id) ?_ .inl
  · constructor <;> intro other <;> simp
  · simp only [List.mem_singleton, forall_eq]
    exact ⟨hknown, hfits, fun _ => rfl, by simp⟩
  · intro other
    simp

/-- A task that went through a deque is counted by its way. -/
theorem inv_retire (hinv : Inv participants trace before)
    (hslot : slot < participants) {task : Task} {via : Via}
    {escaping : Option Exn}
    (htop : before.frames slot = .retire task via escaping :: rest) :
    Inv participants
      (trace ++ (some (.retired task via) : Option (Event Exn)).toList)
      (retireTask before slot task via escaping rest) := by
  obtain ⟨-, hknown, hfits, -, hescaping⟩ := hinv.top htop
  change via.Fits (before.calls task.call) task.index at hfits
  have hevent : (.retired task via : Event Exn) ∈
      trace ++ (some (.retired task via) : Option (Event Exn)).toList := by
    simp
  cases via with
  | own =>
      refine hinv.setCall hslot [.retire task .own escaping] [] htop
        hknown ⟨rfl, rfl, rfl, rfl, rfl⟩ ?_ (by simp) ?_ ?_ ?_ ?_ (by simp)
        .inl (fun _ => .inl) (fun _ => id) ?_ .inl
      · constructor <;> intro other <;> simp [isTask]
      · simp [retiredBy]
      · simp [retiredBy]
      · intro via other hne
        simp [retiredBy, hne.symm]
      · rintro other via heq
        obtain ⟨rfl, rfl⟩ : task = other ∧ Via.own = via := by simpa using heq
        simpa using hfits.2
      · intro other
        simp
  | shared =>
      refine hinv.setCall hslot [.retire task .shared escaping] [] htop
        hknown ⟨rfl, rfl, rfl, rfl, rfl⟩ ?_ (by simp) ?_ ?_ ?_ ?_ (by simp)
        .inl (fun _ => .inl) (fun _ => id) ?_ .inl
      · constructor <;> intro other <;> simp [isTask]
      · simp [retiredBy]
      · simp [retiredBy]
      · intro via other hne
        simp [retiredBy, hne.symm]
      · rintro other via heq
        obtain ⟨rfl, rfl⟩ : task = other ∧ Via.shared = via := by
          simpa using heq
        exact ⟨fun _ => .inr rfl, fun _ => hfits⟩
      · intro other
        simp
  | tail =>
      have hexchange := exchange_top hslot htop
        [.drain task.call .nested .check none]
      refine ⟨hinv.places.exchange hexchange ?_ rfl (fun _ _ => rfl)
        (fun _ => .refl _) ?_ (by simp), hinv.ledger.step
        (.of_calls hinv.ledger hexchange rfl rfl ?_ (by simp) ?_ (by simp)),
        hinv.notified⟩
      · constructor <;> intro other <;> simp [isTask]
      · simp only [List.mem_singleton, forall_eq]
        obtain ⟨hkind, hindex⟩ := hfits
        refine ⟨hknown, hkind, .tail, ?_⟩
        rw [Frame.call, ← hindex]
        exact hevent
      · rintro other via heq
        obtain ⟨rfl, rfl⟩ : task = other ∧ Via.tail = via := by simpa using heq
        simp [hfits.2]
      · intro other
        simp
  | single =>
      have hexchange := exchange_top hslot htop [.ret task.call escaping]
      refine ⟨hinv.places.exchange hexchange ?_ rfl (fun _ _ => rfl)
        (fun _ => .refl _) ?_ (by simp), hinv.ledger.step
        (.of_calls hinv.ledger hexchange rfl rfl ?_ (by simp) ?_ (by simp)),
        hinv.notified⟩
      · constructor <;> intro other <;> simp [isTask]
      · simp only [List.mem_singleton, forall_eq]
        have hshaped := hinv.places.shaped task.call
        refine ⟨hknown, hfits.1, ?_, fun thrown heq =>
          ⟨task.index, List.mem_append_left _ (hescaping thrown heq)⟩⟩
        intro index hindex
        have hsmall : ¬ 2 ≤ (before.calls task.call).count := by
          rw [← hshaped]
          simpa using hfits.1
        have hzero : index = task.index := by
          have hlt := hfits.2
          simp only [Frame.call] at hindex
          omega
        subst hzero
        exact ⟨.single, hevent⟩
      · rintro other via heq
        obtain ⟨rfl, rfl⟩ : task = other ∧ Via.single = via := by
          simpa using heq
        simp [Call.deferred, hfits.1]
      · intro other
        left
        by_cases hother : task = other
        · subst hother
          cases escaping <;> simp [isTask]
        · cases escaping <;> simp [isTask, hother]

/-! ## Draining -/

theorem frameOk_drain {record : Call Exn} {call : ℕ} {role : Role}
    {pc other : DrainPc} {lastVictim victim : Option ℕ}
    (hok : FrameOk trace record (.drain call role pc lastVictim)) :
    FrameOk trace record (.drain call role other victim) := by
  cases role <;> exact hok

/-- The drain moves on and takes nothing. -/
theorem inv_drainOn (hinv : Inv participants trace before)
    (hslot : slot < participants) {call : ℕ} {role : Role}
    {pc other : DrainPc} {lastVictim victim : Option ℕ}
    (htop : before.frames slot = .drain call role pc lastVictim :: rest) :
    Inv participants (trace ++ (none : Option (Event Exn)).toList)
      (before.setFrames slot (.drain call role other victim :: rest)) := by
  obtain ⟨-, hknown, hok⟩ := hinv.top htop
  refine hinv.quietTop hslot htop [.drain call role other victim]
    ?_ trivial ?_ ?_
  · constructor <;> intro task <;> simp
  · simp
  · simp only [List.mem_singleton, forall_eq]
    exact ⟨hknown, by simpa using frameOk_drain hok⟩

/-- The drain takes a task from a deque, its own or a victim's. -/
theorem inv_take (hinv : Inv participants trace before)
    (hslot : slot < participants) {call owner : ℕ} {role : Role}
    {pc : DrainPc} {lastVictim victim : Option ℕ} {task : Task} {via : Via}
    {others : List Task} (howner : owner < participants)
    (htop : before.frames slot = .drain call role pc lastVictim :: rest)
    (htaken : (before.deques owner).Perm (others ++ [task]))
    (hvia : via = .own ∧ role = .nested ∧ task.call = call ∨ via = .shared) :
    Inv participants (trace ++ (none : Option (Event Exn)).toList)
      ((before.setDeque owner others).setFrames slot
        (.gate task via :: .drain call role .check victim :: rest)) := by
  obtain ⟨-, hknown, hok⟩ := hinv.top htop
  have htask := hinv.places.tasks owner task
    (htaken.symm.subset (by simp))
  have hcall : task.call < before.callCount := by
    by_contra hge
    rw [hinv.places.fresh task.call (by omega)] at htask
    simp [Call.deferred, Call.unused] at htask
  have hfits : via.Fits (before.calls task.call) task.index := by
    rcases hvia with ⟨rfl, rfl, rfl⟩ | rfl
    · exact ⟨hok.1, htask⟩
    · exact htask
  have hexchange : Exchange participants before
      ((before.setDeque owner others).setFrames slot
        (.gate task via :: .drain call role .check victim :: rest))
      [.drain call role pc lastVictim]
      [.gate task via, .drain call role .check victim] [task] [] :=
    exchange_of_updates hslot howner htop rfl rfl (by simpa using htaken)
  refine hinv.quiet hexchange ?_ trivial rfl rfl rfl rfl ?_ ?_ (by simp)
  · rcases hvia with ⟨rfl, -⟩ | rfl <;> constructor <;> intro other <;> simp
  · simp
  · simp only [List.mem_cons, List.not_mem_nil, or_false, forall_eq_or_imp,
      forall_eq]
    refine ⟨⟨hcall, hfits, ?_⟩, hknown, by simpa using frameOk_drain hok⟩
    rcases hvia with ⟨rfl, -⟩ | rfl <;> simp

/-- The drain of a call with nothing pending is over. -/
theorem Inv.allRetired (hinv : Inv participants trace before) {call : ℕ}
    {role : Role} {pc : DrainPc} {lastVictim : Option ℕ}
    (hrole : role ≠ .worker)
    (htop : before.frames slot = .drain call role pc lastVictim :: rest)
    (heffective : (before.calls call).effective role ≤ 0) :
    (before.calls call).kind ≠ .single ∧
      AllRetired trace (before.calls call) call := by
  obtain ⟨-, -, hok⟩ := hinv.top htop
  have hdrained := hinv.drained heffective
  cases role with
  | nested =>
      obtain ⟨hkind, htail⟩ := hok
      simp only [Frame.call] at hkind htail
      have hdeferred : (before.calls call).deferred =
          (before.calls call).count - 1 := by
        simp [Call.deferred, hkind]
      refine ⟨by simp [hkind], fun index hindex => ?_⟩
      by_cases hlt : index < (before.calls call).deferred
      · exact hdrained index hlt
      · obtain rfl : index = (before.calls call).deferred := by omega
        exact htail
  | producer =>
      have hkind : (before.calls call).kind = .outer := hok
      refine ⟨by simp [hkind], fun index hindex => hdrained index ?_⟩
      simpa [Call.deferred, hkind] using hindex
  | worker => exact absurd rfl hrole

theorem inv_drained (hinv : Inv participants trace before)
    (hslot : slot < participants) {call : ℕ} {role : Role}
    {lastVictim : Option ℕ}
    (htop : before.frames slot = .drain call role .check lastVictim :: rest)
    (heffective : (before.calls call).effective role ≤ 0)
    (next : List (Frame Exn))
    (hnext : role = .nested ∧ next = [.rethrow call] ∨
      role = .producer ∧ next = [.join call] ∨ role = .worker ∧ next = []) :
    Inv participants (trace ++ (none : Option (Event Exn)).toList)
      (before.setFrames slot (next ++ rest)) := by
  obtain ⟨-, hknown, hok⟩ := hinv.top htop
  refine hinv.quietTop hslot htop next ?_ trivial ?_ ?_
  · rcases hnext with ⟨rfl, rfl⟩ | ⟨rfl, rfl⟩ | ⟨rfl, rfl⟩ <;>
      constructor <;> intro task <;> simp
  · rcases hnext with ⟨rfl, rfl⟩ | ⟨rfl, rfl⟩ | ⟨rfl, rfl⟩ <;> simp
  · rcases hnext with ⟨rfl, rfl⟩ | ⟨rfl, rfl⟩ | ⟨rfl, rfl⟩
    · obtain ⟨hkind, hall⟩ := hinv.allRetired (by simp) htop heffective
      simpa using ⟨hknown, hkind, hall⟩
    · obtain ⟨-, hall⟩ := hinv.allRetired (by simp) htop heffective
      simpa using ⟨hknown, hok, hall⟩
    · simp

theorem inv_join (hinv : Inv participants trace before)
    (hslot : slot < participants) {call : ℕ}
    (htop : before.frames slot = .join call :: rest) :
    Inv participants (trace ++ (none : Option (Event Exn)).toList)
      (before.setFrames slot (.rethrow call :: rest)) := by
  obtain ⟨-, hknown, hkind, hall⟩ := hinv.top htop
  refine hinv.quietTop hslot htop [.rethrow call] ?_ trivial ?_ ?_
  · constructor <;> intro task <;> simp
  · simp
  · have hne : (before.calls call).kind ≠ .single := by
      simp only [Frame.call] at hkind
      simp [hkind]
    simpa using ⟨hknown, hne, hall⟩

/-! ## Calls and returns -/

/-- What a call gives back to the frames below it. -/
theorem resume_cases {result : Option Exn} {rest below : List (Frame Exn)}
    (hresume : resume result rest = some below) :
    rest = [] ∧ below = [] ∨
      ∃ task via next tail, rest = .wait task via next :: tail ∧
        below = .body task via (next result) :: tail := by
  unfold resume at hresume
  split at hresume
  · exact .inl ⟨rfl, by simpa using hresume.symm⟩
  next task via next tail =>
    exact .inr ⟨task, via, next, tail, rfl, by simpa using hresume.symm⟩
  · simp at hresume

/-- The frame below a returning call goes on with its body. -/
theorem inv_resume (hinv : Inv participants trace before) {frame : Frame Exn}
    {result : Option Exn} {call : ℕ} {below : List (Frame Exn)}
    (hframe : frame = .rethrow call ∨ frame = .ret call result)
    (htop : before.frames slot = frame :: rest)
    (hresume : resume result rest = some below) :
    ∃ old new tail, before.frames slot = old ++ tail ∧ below = new ++ tail ∧
      Balanced old new [] [] (some (.returned call result)) ∧
      (∀ task, weigh (Frame.throws task) old ≤
          weigh (Frame.throws task) new ∨ task.call = call) ∧
      ∀ other ∈ new, other.call < before.callCount ∧
        FrameOk trace (before.calls other.call) other := by
  rcases resume_cases hresume with
    ⟨rfl, rfl⟩ | ⟨task, via, next, tail, rfl, rfl⟩
  · refine ⟨[frame], [], [], htop, rfl, ?_, ?_, by simp⟩
    · rcases hframe with rfl | rfl <;> constructor <;> intro other <;> simp
    · intro other
      rcases hframe with rfl | rfl
      · exact .inl (by simp)
      · by_cases hcall : other.call = call
        · exact .inr hcall
        · left
          cases result <;> simp [hcall]
  · have hwait : .wait task via next ∈ before.frames slot := by
      rw [htop]
      simp
    obtain ⟨hknown, hok⟩ := hinv.places.frames slot _ hwait
    refine ⟨[frame, .wait task via next], [.body task via (next result)], tail,
      htop, rfl, ?_, ?_, ?_⟩
    · rcases hframe with rfl | rfl <;> constructor <;> intro other <;>
        simp [Nat.add_comm]
    · intro other
      rcases hframe with rfl | rfl
      · exact .inl (by simp)
      · by_cases hcall : other.call = call
        · exact .inr hcall
        · left
          cases result <;> simp [hcall]
    · simpa using ⟨hknown, hok⟩

theorem inv_rethrow (hinv : Inv participants trace before)
    (hslot : slot < participants) {call : ℕ} {below : List (Frame Exn)}
    (htop : before.frames slot = .rethrow call :: rest)
    (hresume : resume (before.calls call).firstException rest = some below) :
    Inv participants
      (trace ++ (some (.returned call (before.calls call).firstException) :
        Option (Event Exn)).toList)
      ((before.setCall call
        { before.calls call with firstException := none }).setFrames
          slot below) := by
  obtain ⟨-, hknown, -⟩ := hinv.top htop
  obtain ⟨old, new, tail, hold, rfl, hbalanced, hflow, hnew⟩ :=
    inv_resume hinv (.inl rfl) htop hresume
  refine hinv.setCall hslot old new hold hknown ⟨rfl, rfl, rfl, rfl, rfl⟩
    hbalanced ?_ (by simp [retiredBy]) (by simp [retiredBy])
    (by simp [retiredBy]) (by simp) (by simp) .inl (by simp)
    (fun _ _ => rfl) ?_ (fun _ => .inr (by simp))
  · intro frame hframe
    obtain ⟨hbelow, hok⟩ := hnew frame hframe
    exact ⟨hbelow, hok.extended (.refl _) _⟩
  · intro task
    refine (hflow task).imp_right ?_
    rintro rfl
    exact .inr (by simp)

theorem inv_ret (hinv : Inv participants trace before)
    (hslot : slot < participants) {call : ℕ} {result : Option Exn}
    {below : List (Frame Exn)}
    (htop : before.frames slot = .ret call result :: rest)
    (hresume : resume result rest = some below) :
    Inv participants
      (trace ++ (some (.returned call result) : Option (Event Exn)).toList)
      (before.setFrames slot below) := by
  obtain ⟨old, new, tail, hold, rfl, hbalanced, hflow, hnew⟩ :=
    inv_resume hinv (.inr rfl) htop hresume
  have hexchange : Exchange participants before
      (before.setFrames slot (new ++ tail)) old new [] [] :=
    exchange_of_frames hslot hold rfl rfl
  refine ⟨hinv.places.exchange hexchange hbalanced rfl (fun _ _ => rfl)
    (fun _ => .refl _) ?_ (by simp), hinv.ledger.step
    (.of_calls hinv.ledger hexchange rfl rfl (by simp) (by simp) ?_ (by simp)),
    hinv.notified⟩
  · intro frame hframe
    obtain ⟨hbelow, hok⟩ := hnew frame hframe
    exact ⟨hbelow, hok.extended (.refl _) _⟩
  · intro task
    refine (hflow task).imp_right ?_
    rintro rfl
    simp

/-! ## Making a call -/

theorem entryFrame_call (call count : ℕ) :
    (entryFrame call count : Frame Exn).call = call := by
  unfold entryFrame
  split_ifs <;> rfl

theorem isTask_zero (task : Task) (call : ℕ) :
    isTask task ⟨call, 0⟩ =
      (decide (task.call = call ∧ task.index < 1)).toNat := by
  rcases task with ⟨other, index⟩
  simp [isTask, eq_comm]

theorem entryFrame_places (task : Task) (call count : ℕ) :
    (entryFrame call count : Frame Exn).places task =
      (decide (task.call = call ∧ task.index < count)).toNat := by
  unfold entryFrame
  split_ifs with hzero hone
  · simp [hzero]
  · simp only [Frame.places, isTask_zero, hone]
  · simp [unpushed]

theorem entryFrame_holdsBack (task : Task) (call count : ℕ) :
    (entryFrame call count : Frame Exn).holdsBack task =
      (decide (task.call = call ∧ task.index < count)).toNat := by
  unfold entryFrame
  split_ifs with hzero hone
  · simp [hzero]
  · simp only [Frame.holdsBack, isTask_zero, hone]
  · simp [unpushed]

theorem entryFrame_runs (task : Task) (call count : ℕ) :
    (entryFrame call count : Frame Exn).runs task = 0 := by
  unfold entryFrame
  split_ifs <;> rfl

theorem entryFrame_owns (other call count : ℕ) :
    (entryFrame call count : Frame Exn).owns other =
      (decide (call = other)).toNat := by
  unfold entryFrame
  split_ifs <;> rfl

section Make

variable (inside : Bool) (token : Option ℕ) (count : ℕ) (child : ℕ → Prog Exn)

@[simp] theorem Call.make_count :
    (Call.make inside token count child).count = count := rfl

theorem Call.make_kind : (Call.make inside token count child).kind ≠ .single ↔
    2 ≤ count := by
  by_cases hcount : count ≤ 1
  · simp only [Call.make, hcount, if_true]
    simp
    omega
  · cases inside <;> simp [Call.make, hcount] <;> omega

theorem Call.make_pending : (Call.make inside token count child).pendingTasks =
    (Call.make inside token count child).deferred := by
  by_cases hcount : count ≤ 1
  · simp [Call.make, Call.deferred, hcount]
  · cases inside <;> simp [Call.make, Call.deferred, hcount]

/-- The first frame of a call fits it. -/
theorem frameOk_entry (trace : List (Event Exn)) (call : ℕ) :
    FrameOk trace (Call.make inside token count child)
      (entryFrame call count) := by
  have hkind := Call.make_kind inside token count child
  unfold entryFrame
  split_ifs with hzero hone
  · subst hzero
    refine ⟨by simpa using hkind, fun index hindex => ?_, by simp⟩
    simp at hindex
  · subst hone
    exact ⟨by simpa using hkind, by simp⟩
  · exact ⟨hkind.2 (by omega), rfl, Nat.zero_le _⟩

end Make

/-- Nothing has happened to a call that was not made. -/
theorem Places.unborn (hplaces : Places participants trace before)
    {task : Task} (hcall : before.callCount ≤ task.call) :
    before.born task = 0 := by
  simp [State.born, hplaces.fresh task.call hcall, Call.unused]

theorem retiredBy_le (trace : List (Event Exn)) (via : Via) (call : ℕ)
    (hnone : ∀ index, retiredCount trace ⟨call, index⟩ = 0) :
    retiredBy trace via call = 0 := by
  rw [retiredBy, List.countP_eq_zero]
  intro event hevent
  cases event with
  | retired task other =>
      intro hretired
      obtain ⟨rfl, rfl⟩ : task.call = call ∧ other = via := by
        simpa using hretired
      exact absurd (hnone task.index)
        (Nat.ne_of_gt (Retired.count ⟨other, hevent⟩))
  | _ => simp

/-- An event of a task shows that its call was made. -/
theorem Places.call_lt (hplaces : Places participants trace before)
    {task : Task} (hevent : 0 < retiredCount trace task ∨
      0 < skippedCount trace task ∨ 0 < endedCount trace task) :
    task.call < before.callCount := by
  by_contra hge
  have hzero := hplaces.unborn (Nat.le_of_not_lt hge)
  have := hplaces.placed task
  have := hplaces.heldBack task
  have := hplaces.running task
  omega

theorem skippedCount_of_mem {task : Task}
    (hevent : .skipped task ∈ trace) : 0 < skippedCount trace task :=
  List.countP_pos_iff.2 ⟨_, hevent, by simp⟩

section OpenCall

variable {old waiting : List (Frame Exn)} (inside : Bool) (token : Option ℕ)
variable (count : ℕ) (child : ℕ → Prog Exn)

theorem openCall_self (slot : ℕ) (frames : List (Frame Exn)) :
    (before.openCall slot inside token count child frames).calls
      before.callCount = Call.make inside token count child := by
  simp [State.openCall]

theorem openCall_other (slot : ℕ) (frames : List (Frame Exn)) {call : ℕ}
    (hother : call ≠ before.callCount) :
    (before.openCall slot inside token count child frames).calls call =
      before.calls call := by
  simp [State.openCall, hother]

theorem Places.openCall (hplaces : Places participants trace before)
    (hslot : slot < participants) (htop : before.frames slot = old ++ rest)
    (hbalanced : Balanced old waiting [] [] (none : Option (Event Exn)))
    (hwaiting : ∀ frame ∈ waiting, frame.call < before.callCount ∧
      FrameOk trace (before.calls frame.call) frame) :
    Places participants trace
      (before.openCall slot inside token count child (waiting ++ rest)) := by
  have hexchange : Exchange participants before
      (before.openCall slot inside token count child (waiting ++ rest))
      old (entryFrame before.callCount count :: waiting) [] [] :=
    exchange_of_frames hslot htop rfl rfl
  have hborn : ∀ task, (before.openCall slot inside token count child
      (waiting ++ rest)).born task = before.born task +
        (decide (task.call = before.callCount ∧ task.index < count)).toNat := by
    intro task
    by_cases hmade : task.call = before.callCount
    · rw [hplaces.unborn hmade.ge, State.born, hmade, openCall_self]
      by_cases hlt : task.index < count <;> simp [hlt]
    · simp [State.born, openCall_other inside token count child slot _ hmade,
        hmade]
  have hkept : ∀ frame : Frame Exn, frame.call < before.callCount →
      FrameOk trace (before.calls frame.call) frame →
      FrameOk trace ((before.openCall slot inside token count child
        (waiting ++ rest)).calls frame.call) frame := by
    intro frame hknown hok
    rwa [openCall_other inside token count child slot _ (by omega)]
  exact
    { fresh := by
        intro call hcall
        have hmore : before.callCount + 1 ≤ call := hcall
        rw [openCall_other inside token count child slot _ (by omega)]
        exact hplaces.fresh call (by omega)
      shaped := by
        intro call
        by_cases hmade : call = before.callCount
        · rw [hmade, openCall_self, Call.make_kind, Call.make_count]
        · rw [openCall_other inside token count child slot _ hmade]
          exact hplaces.shaped call
      placed := by
        intro task
        have htotal := hexchange.total (Frame.places task) (isTask task)
        have hbefore := hplaces.placed task
        have hstep := hbalanced.placed task
        rw [weigh_cons, entryFrame_places] at htotal
        rw [hborn]
        simp only [Option.toList_none, retiredCount_nil] at hstep
        omega
      heldBack := by
        intro task
        have htotal := hexchange.total (Frame.holdsBack task) (isTask task)
        have hbefore := hplaces.heldBack task
        have hstep := hbalanced.heldBack task
        rw [weigh_cons, entryFrame_holdsBack] at htotal
        rw [hborn]
        simp only [Option.toList_none, ranCount_nil, skippedCount_nil] at hstep
        omega
      running := by
        intro task
        have htotal := hexchange.total (Frame.runs task) fun _ => 0
        have hbefore := hplaces.running task
        have hstep := hbalanced.running task
        rw [weigh_cons, entryFrame_runs] at htotal
        simp only [Option.toList_none, ranCount_nil, endedCount_nil] at hstep
        omega
      owned := by
        intro call
        have htotal := hexchange.total (Frame.owns call) fun _ => 0
        have hbefore := hplaces.owned call
        have hstep := hbalanced.owned call
        rw [weigh_cons, entryFrame_owns] at htotal
        simp only [Option.toList_none, returnedCount_nil] at hstep
        have hcount : (before.openCall slot inside token count child
          (waiting ++ rest)).callCount = before.callCount + 1 := rfl
        rw [hcount]
        by_cases hmade : before.callCount = call
        · subst hmade
          simp only [lt_irrefl, if_false] at hbefore
          simp only [Nat.lt_succ_self, if_true, decide_true, Bool.toNat_true]
            at htotal ⊢
          omega
        · simp only [hmade, decide_false, Bool.toNat_false] at htotal
          split at hbefore <;> split <;> omega
      frames := by
        intro other frame hframe
        have hmore : ∀ frame : Frame Exn, frame.call < before.callCount →
            frame.call < before.callCount + 1 := fun _ => Nat.lt_succ_of_lt
        rcases hexchange.frames other frame hframe with hold | hnew
        · obtain ⟨hknown, hok⟩ := hplaces.frames other frame hold
          exact ⟨hmore frame hknown, hkept frame hknown hok⟩
        · rcases List.mem_cons.1 hnew with rfl | hwait
          · rw [entryFrame_call, openCall_self]
            exact ⟨Nat.lt_succ_self _,
              frameOk_entry inside token count child trace _⟩
          · obtain ⟨hknown, hok⟩ := hwaiting frame hwait
            exact ⟨hmore frame hknown, hkept frame hknown hok⟩
      tasks := by
        intro other task htask
        have hindex := hplaces.tasks other task htask
        have hmade : task.call ≠ before.callCount := by
          intro heq
          rw [hplaces.fresh task.call heq.ge] at hindex
          simp [Call.deferred, Call.unused] at hindex
        rwa [openCall_other inside token count child slot _ hmade] }

theorem Ledger.openCall (hinv : Inv participants trace before)
    (hslot : slot < participants) (htop : before.frames slot = old ++ rest)
    (hthrows : ∀ task, weigh (Frame.throws task) old ≤
      weigh (Frame.throws task) waiting) :
    Ledger participants trace
      (before.openCall slot inside token count child (waiting ++ rest)) := by
  have hledger := hinv.ledger
  have hexchange : Exchange participants before
      (before.openCall slot inside token count child (waiting ++ rest))
      old (entryFrame before.callCount count :: waiting) [] [] :=
    exchange_of_frames hslot htop rfl rfl
  have hnone : ∀ via, retiredBy trace via before.callCount = 0 := by
    intro via
    refine retiredBy_le trace via _ fun index => ?_
    have hzero := hinv.places.unborn
      (le_refl (Task.call ⟨before.callCount, index⟩))
    have := hinv.places.placed ⟨before.callCount, index⟩
    omega
  have hmade : ∀ call, call < before.callCount →
      (before.openCall slot inside token count child (waiting ++ rest)).calls
        call = before.calls call := fun call hlt =>
    openCall_other inside token count child slot _ (Nat.ne_of_lt hlt)
  exact
    { pending := by
        intro call
        by_cases hcall : call = before.callCount
        · rw [hcall, openCall_self, hnone, Call.make_pending]
          simp
        · rw [openCall_other inside token count child slot _ hcall]
          exact hledger.pending call
      own := by
        intro call
        by_cases hcall : call = before.callCount
        · rw [hcall, openCall_self, hnone]
          rfl
        · rw [openCall_other inside token count child slot _ hcall]
          exact hledger.own call
      counted := by
        intro task via hevent
        rw [hmade task.call (hinv.places.call_lt
          (.inl (Retired.count ⟨via, hevent⟩)))]
        exact hledger.counted task via hevent
      skips := by
        intro task hevent
        refine (hledger.skips task hevent).imp_right fun hrequested => ?_
        rw [State.stopRequested, hmade task.call (hinv.places.call_lt
          (.inr (.inl (skippedCount_of_mem hevent))))]
        exact hrequested
      cancelled := by
        intro call hcancelled
        by_cases hcall : call = before.callCount
        · rw [hcall, openCall_self] at hcancelled
          exact absurd hcancelled (by simp [Call.make, Call.unused])
        · rw [openCall_other inside token count child slot _ hcall]
            at hcancelled
          exact hledger.cancelled call hcancelled
      captured := by
        intro call thrown hcaptured
        by_cases hcall : call = before.callCount
        · rw [hcall, openCall_self] at hcaptured
          exact absurd hcaptured (by simp [Call.make, Call.unused])
        · rw [openCall_other inside token count child slot _ hcall]
            at hcaptured
          exact hledger.captured call thrown hcaptured
      direct := by
        intro call hkind
        by_cases hcall : call = before.callCount
        · rw [hcall, openCall_self]
          rfl
        · rw [openCall_other inside token count child slot _ hcall] at hkind ⊢
          exact hledger.direct call hkind
      thrown := by
        intro task thrown hevent hreturned
        rw [hmade task.call (hinv.places.call_lt
          (.inr (.inr (endedCount_pos hevent))))]
        have htotal := hexchange.total (Frame.throws task) fun _ => 0
        have hflow := hthrows task
        simp only [weigh_cons, weigh_nil] at htotal
        refine (hledger.thrown task thrown hevent hreturned).imp_right
          fun hbefore => ?_
        omega }

theorem Inv.openCall (hinv : Inv participants trace before)
    (hslot : slot < participants) (old waiting : List (Frame Exn))
    (htop : before.frames slot = old ++ rest)
    (hbalanced : Balanced old waiting [] [] (none : Option (Event Exn)))
    (hthrows : ∀ task, weigh (Frame.throws task) old ≤
      weigh (Frame.throws task) waiting)
    (hwaiting : ∀ frame ∈ waiting, frame.call < before.callCount ∧
      FrameOk trace (before.calls frame.call) frame) :
    Inv participants (trace ++ (none : Option (Event Exn)).toList)
      (before.openCall slot inside token count child (waiting ++ rest)) := by
  rw [Option.toList_none, List.append_nil]
  exact ⟨hinv.places.openCall inside token count child hslot htop hbalanced
    hwaiting, .openCall inside token count child hinv hslot htop hthrows,
    fun other call hnotified =>
      Nat.lt_succ_of_lt (hinv.notified other call hnotified)⟩

end OpenCall

/-! ## The environment -/

theorem inv_wake (hinv : Inv participants trace before)
    (hslot : slot < participants) (hempty : before.frames slot = [])
    {call : ℕ} (hnotified : before.workers slot = .notified call) :
    Inv participants (trace ++ (none : Option (Event Exn)).toList)
      (before.setFrames slot [.drain call .worker .check none]) := by
  have hexchange : Exchange participants before
      (before.setFrames slot [.drain call .worker .check none]) []
      [.drain call .worker .check none] [] [] :=
    exchange_of_frames hslot hempty rfl rfl
  refine hinv.quiet hexchange ?_ trivial rfl rfl rfl rfl (by simp) ?_ (by simp)
  · constructor <;> intro task <;> simp
  · simpa [FrameOk] using hinv.notified slot call hnotified

theorem inv_stop (hinv : Inv participants trace before) (token : ℕ) :
    Inv participants (trace ++ (none : Option (Event Exn)).toList)
      { before with stopped := Function.update before.stopped token true } := by
  rw [Option.toList_none, List.append_nil]
  have hmono : ∀ other, before.stopped other = true →
      Function.update before.stopped token true other = true := by
    intro other hstopped
    by_cases hother : other = token
    · rw [hother, Function.update_self]
    · rwa [Function.update_of_ne hother]
  refine ⟨⟨hinv.places.fresh, hinv.places.shaped, hinv.places.placed,
    hinv.places.heldBack, hinv.places.running, hinv.places.owned,
    hinv.places.frames, hinv.places.tasks⟩,
    ⟨hinv.ledger.pending, hinv.ledger.own, hinv.ledger.counted,
    fun task hevent => ?_, hinv.ledger.cancelled, hinv.ledger.captured,
    hinv.ledger.direct, hinv.ledger.thrown⟩, hinv.notified⟩
  refine (hinv.ledger.skips task hevent).imp_right fun hrequested => ?_
  refine stopRequested_mono ?_ hmono hrequested
  exact fun call => .refl (before.calls call)

end Citor.ForkJoin
