import Citor.Core.Census
import Citor.Core.Fairness
import Citor.Dispatch.DetachedTasks

/-!
# The drain of detached tasks

What one operation of a task does to its phase is stated once; the count, the
mutex and the pending notification follow from it.  A zero count freezes the
tasks, so the notifier and the destructor are the only ones left to run.
-/

namespace Citor.DetachedTasks

open Citor.Interleaving

/-- What an operation changes about a phase. -/
structure Phase.Next (before after : Phase) (op : Op) : Prop where
  inFlight : op ≠ .countOut → after.inFlight = before.inFlight
  countOut : op = .countOut →
    before.inFlight = true ∧ after.inFlight = false
  lock : op = .lock → after.holds = true
  unlock : op = .unlock → after.holds = false
  held : op = .unlock ∨ op = .notify ∨ op = .record → before.holds = true
  holds : op ≠ .lock → op ≠ .unlock → after.holds = before.holds
  submits : after.submits = true → before.submits = true
  past : before.past = true → after.past = true
  notify : op ≠ .notify → before.willNotify = true → after.willNotify = true
  announces : op = .countOut → after.willNotify = true
  notRunning : before ≠ .running
  record : op = .record → before = .recording
  recording : after = .recording → before = .threw
  threw : after ≠ .threw
  retires : op ≠ .leave → before.past = false

theorem Phase.next_spec {before after : Phase} {op : Op}
    (hnext : before.next = some (op, after)) : before.Next after op := by
  cases before <;> simp only [Phase.next, Option.some.injEq, Prod.mk.injEq,
    reduceCtorEq] at hnext <;> obtain ⟨rfl, rfl⟩ := hnext <;>
    constructor <;> decide

/-! ## The invariant -/

structure DrainInv (state : State) : Prop where
  counter : state.inFlight =
    (state.tasks.countP fun task => task.phase.inFlight : ℕ)
  holds : ∀ index task, state.tasks[index]? = some task →
    (task.phase.holds = true ↔ state.mutex = some (.task index))
  holder : ∀ index, state.mutex = some (.task index) →
    index < state.tasks.length
  drainHolds : state.mutex = some .drain ↔ state.drain.holds = true
  nested : ∀ task ∈ state.tasks, task.phase.submits = true →
    ∀ body, task.submitter = some body →
      ∃ other, state.tasks[body]? = some other ∧ other.phase = .running
  outer : state.drain ≠ .idle → ∀ task ∈ state.tasks,
    task.phase.submits = true → task.submitter ≠ none
  waits : state.drain = .waiting → state.inFlight = 0 →
    ∃ task ∈ state.tasks, task.phase.willNotify = true
  empty : state.drain = .unlocking ∨ state.drain = .drained →
    ∀ task ∈ state.tasks, task.phase.past = true
  runner : ∀ index, state.runner = some index →
    ∃ task, state.tasks[index]? = some task ∧ task.phase.past = true
  threw : ∀ task ∈ state.tasks,
    task.phase = .threw ∨ task.phase = .recording → task.threw = true
  latched : ∀ index, state.exception = some index →
    ∃ task, state.tasks[index]? = some task ∧ task.threw = true

/-- How one task may change. -/
structure State.Moves (state : State) (index : ℕ) (task after : Task) :
    Prop where
  submitter : after.submitter = task.submitter
  submits : after.phase.submits = true → task.phase.submits = true
  past : task.phase.past = true → after.phase.past = true
  running : task.phase = .running →
    after.phase = .running ∨ state.returned index = true
  thrown : after.phase = .threw ∨ after.phase = .recording →
    after.threw = true
  threw : task.threw = true → after.threw = true

/-- One task moves, and the shared fields move with it. -/
theorem DrainInv.move {state : State} (hinv : DrainInv state) {index : ℕ}
    {task : Task} (htask : state.tasks[index]? = some task)
    {change : Task → Task} (hmoves : state.Moves index task (change task))
    {inFlight : ℤ} {mutex : Option Holder} {exception : Option ℕ}
    {drain : Drain}
    (hcounter : inFlight + (task.phase.inFlight.toNat : ℤ) =
      state.inFlight + ((change task).phase.inFlight.toNat : ℤ))
    (hself : (change task).phase.holds = true ↔ mutex = some (.task index))
    (hothers : ∀ other, other ≠ index →
      (mutex = some (.task other) ↔ state.mutex = some (.task other)))
    (hdrain : mutex = some .drain ↔ drain.holds = true)
    (hidle : drain ≠ .idle → state.drain ≠ .idle)
    (hwaits : drain = .waiting → state.drain = .waiting ∧
      ((change task).phase.willNotify = true ∨ inFlight = state.inFlight ∧
        task.phase.willNotify = false))
    (hempty : drain = .unlocking ∨ drain = .drained → state.drain = drain)
    (hexception : exception = state.exception ∨
      exception = some index ∧ (change task).threw = true) :
    DrainInv ⟨state.tasks.modify index change, inFlight, mutex, exception,
      drain, state.runner⟩ := by
  have hself? : (state.tasks.modify index change)[index]? =
      some (change task) := by
    simp [htask]
  have hmem : task ∈ state.tasks :=
    List.mem_iff_getElem?.2 ⟨index, htask⟩
  have hmemAfter : change task ∈ state.tasks.modify index change :=
    List.mem_iff_getElem?.2 ⟨index, hself?⟩
  constructor
  · have hcount := Census.countP_modify (fun task : Task => task.phase.inFlight)
      change htask
    have := hinv.counter
    simp only at hcount ⊢
    omega
  · intro position other hother
    rcases Census.getElem?_modify_cases htask hother with
      ⟨rfl, rfl⟩ | ⟨hne, hbefore⟩
    · exact hself
    · rw [hothers position hne]
      exact hinv.holds position other hbefore
  · intro position hmutex
    simp only [List.length_modify]
    by_cases hne : position = index
    · subst hne
      exact (List.getElem?_eq_some_iff.1 htask).1
    · exact hinv.holder position ((hothers position hne).1 hmutex)
  · exact hdrain
  · intro other hother hsubmits body hbody
    have hbefore : ∃ earlier ∈ state.tasks, earlier.phase.submits = true ∧
        earlier.submitter = some body := by
      rcases Census.mem_modify htask hother with rfl | hother
      · exact ⟨task, hmem, hmoves.submits hsubmits,
          hmoves.submitter.symm.trans hbody⟩
      · exact ⟨other, hother, hsubmits, hbody⟩
    obtain ⟨earlier, hearlier, hsubmitted, hsubmitter⟩ := hbefore
    obtain ⟨running, hrunning, hphase⟩ :=
      hinv.nested earlier hearlier hsubmitted body hsubmitter
    by_cases hne : body = index
    · subst hne
      obtain rfl : task = running := by simpa [htask] using hrunning
      refine ⟨change task, hself?, ?_⟩
      rcases hmoves.running hphase with hrun | hreturned
      · exact hrun
      · have := List.all_eq_true.1 hreturned earlier hearlier
        simp [hsubmitted, hsubmitter] at this
    · exact ⟨running, by
        rw [List.getElem?_modify_ne _ _ (Ne.symm hne)]
        exact hrunning, hphase⟩
  · intro hstarted other hother hsubmits
    rcases Census.mem_modify htask hother with rfl | hother
    · rw [hmoves.submitter]
      exact hinv.outer (hidle hstarted) task hmem (hmoves.submits hsubmits)
    · exact hinv.outer (hidle hstarted) other hother hsubmits
  · intro hwaiting hzero
    obtain ⟨hbefore, hnotify | ⟨hsame, hnot⟩⟩ := hwaits hwaiting
    · exact ⟨change task, hmemAfter, hnotify⟩
    · obtain ⟨other, hother, hwill⟩ := hinv.waits hbefore (hsame ▸ hzero)
      obtain ⟨position, hposition⟩ := List.mem_iff_getElem?.1 hother
      have hne : index ≠ position := by
        rintro rfl
        obtain rfl : task = other := by simpa [htask] using hposition
        simp [hnot] at hwill
      refine ⟨other, List.mem_iff_getElem?.2 ⟨position, ?_⟩, hwill⟩
      rwa [List.getElem?_modify_ne _ _ hne]
  · intro hend other hother
    have hbefore := hinv.empty ((hempty hend).symm ▸ hend)
    rcases Census.mem_modify htask hother with rfl | hother
    · exact hmoves.past (hbefore task hmem)
    · exact hbefore other hother
  · intro position hrunner
    obtain ⟨other, hother, hpast⟩ := hinv.runner position hrunner
    by_cases hne : position = index
    · subst hne
      obtain rfl : task = other := by simpa [htask] using hother
      exact ⟨change task, hself?, hmoves.past hpast⟩
    · exact ⟨other, by rwa [List.getElem?_modify_ne _ _ (Ne.symm hne)], hpast⟩
  · intro other hother hphase
    rcases Census.mem_modify htask hother with rfl | hother
    · exact hmoves.thrown hphase
    · exact hinv.threw other hother hphase
  · intro position hlatched
    rcases hexception with hsame | ⟨hnew, hthrew⟩
    · obtain ⟨other, hother, hthrew⟩ :=
        hinv.latched position (hsame ▸ hlatched)
      by_cases hne : position = index
      · subst hne
        obtain rfl : task = other := by simpa [htask] using hother
        exact ⟨change task, hself?, hmoves.threw hthrew⟩
      · exact ⟨other, by rwa [List.getElem?_modify_ne _ _ (Ne.symm hne)],
          hthrew⟩
    · obtain rfl : index = position := by simpa [hnew] using hlatched
      exact ⟨change task, hself?, hthrew⟩

/-! ## Steps -/

theorem Phase.Next.moves {state : State} {index : ℕ} {task : Task}
    {after : Phase} {op : Op} (hnext : task.phase.Next after op)
    (hinv : DrainInv state) (htask : state.tasks[index]? = some task) :
    state.Moves index task { task with phase := after } where
  submitter := rfl
  submits := hnext.submits
  past := hnext.past
  running hrunning := absurd hrunning hnext.notRunning
  thrown := by
    rintro (hthrew | hrecording)
    · exact absurd hthrew hnext.threw
    · exact hinv.threw task (List.mem_iff_getElem?.2 ⟨index, htask⟩)
        (.inl (hnext.recording hrecording))
  threw := id

theorem DrainInv.mutex_of_holds {state : State} (hinv : DrainInv state)
    {index : ℕ} {task : Task} (htask : state.tasks[index]? = some task)
    (hholds : task.phase.holds = true) : state.mutex = some (.task index) :=
  (hinv.holds index task htask).1 hholds

/-- The destructor holds the mutex only when no task does. -/
theorem DrainInv.drain_free {state : State} (hinv : DrainInv state)
    (hmutex : state.mutex ≠ some .drain) : state.drain.holds = false := by
  cases hholds : state.drain.holds with
  | false => rfl
  | true => exact absurd (hinv.drainHolds.2 hholds) hmutex

/-- A waiting notification is the mover's own, or somebody else's. -/
theorem Phase.Next.waits {before after : Phase} {op : Op}
    (hnext : before.Next after op) (hop : op ≠ .notify) {count : ℤ} :
    after.willNotify = true ∨ count = count ∧ before.willNotify = false := by
  cases hwill : before.willNotify with
  | false => exact .inr ⟨rfl, rfl⟩
  | true => exact .inl (hnext.notify hop hwill)

/-- An operation that leaves the mutex alone leaves it with its holder. -/
theorem DrainInv.still_holds {state : State} (hinv : DrainInv state)
    {index : ℕ} {task : Task} {after : Phase} {op : Op}
    (htask : state.tasks[index]? = some task)
    (hnext : task.phase.Next after op) (hlock : op ≠ .lock)
    (hunlock : op ≠ .unlock) :
    after.holds = true ↔ state.mutex = some (.task index) := by
  rw [hnext.holds hlock hunlock]
  exact hinv.holds index task htask

theorem DrainInv.perform {state after : State} (hinv : DrainInv state)
    {index : ℕ} {task : Task} {phase : Phase} {op : Op}
    {event : Option Event} (htask : state.tasks[index]? = some task)
    (hnext : task.phase.next = some (op, phase))
    (hstep : state.perform index phase op = some (after, event)) :
    DrainInv after := by
  have hspec := Phase.next_spec hnext
  have hmoves := hspec.moves hinv htask
  cases op with
  | lock =>
      simp only [State.perform] at hstep
      split_ifs at hstep with hfree
      obtain ⟨rfl, -⟩ := Prod.mk.inj (Option.some.inj hstep)
      refine hinv.move htask hmoves ?_ ?_ ?_ ?_ id ?_ (fun _ => rfl) (.inl rfl)
      · simp [hspec.inFlight]
      · simp [hspec.lock]
      · intro other hother
        simp [hfree, Ne.symm hother]
      · simp [hinv.drain_free (by simp [hfree])]
      · exact fun hwaiting => ⟨hwaiting, hspec.waits (by simp)⟩
  | unlock =>
      obtain ⟨rfl, -⟩ := Prod.mk.inj (Option.some.inj hstep)
      have hmutex := hinv.mutex_of_holds htask (hspec.held (by simp))
      refine hinv.move htask hmoves ?_ ?_ ?_ ?_ id ?_ (fun _ => rfl) (.inl rfl)
      · simp [hspec.inFlight]
      · simp [hspec.unlock]
      · intro other hother
        simp [hmutex, Ne.symm hother]
      · simp [hinv.drain_free (by simp [hmutex])]
      · exact fun hwaiting => ⟨hwaiting, hspec.waits (by simp)⟩
  | countOut =>
      obtain ⟨rfl, -⟩ := Prod.mk.inj (Option.some.inj hstep)
      refine hinv.move htask hmoves ?_
        (hinv.still_holds htask hspec (by simp) (by simp))
        (fun _ _ => Iff.rfl) hinv.drainHolds id ?_ (fun _ => rfl) (.inl rfl)
      · simp [hspec.countOut]
      · exact fun hwaiting => ⟨hwaiting, .inl (hspec.announces rfl)⟩
  | notify =>
      obtain ⟨rfl, -⟩ := Prod.mk.inj (Option.some.inj hstep)
      have hmutex := hinv.mutex_of_holds htask (hspec.held (by simp))
      have hfree := hinv.drain_free (by simp [hmutex])
      have hmoved : ∀ drain, drain.holds = false →
          (drain ≠ .idle → state.drain ≠ .idle) → drain ≠ .waiting →
          (drain = .unlocking ∨ drain = .drained → state.drain = drain) →
          DrainInv ⟨state.tasks.modify index fun task =>
              { task with phase }, state.inFlight, state.mutex,
            state.exception, drain, state.runner⟩ := by
        intro drain hout hidle hawake hend
        refine hinv.move htask hmoves ?_
          (hinv.still_holds htask hspec (by simp) (by simp))
          (fun _ _ => Iff.rfl) ?_ hidle
          (fun hwaiting => absurd hwaiting hawake) hend (.inl rfl)
        · simp [hspec.inFlight]
        · simp [hmutex, hout]
      unfold State.notifyAll
      split
      next hwaiting =>
        exact hmoved .waking rfl (by simp [hwaiting]) nofun nofun
      next hawake => exact hmoved state.drain hfree id hawake fun _ => rfl
  | record =>
      obtain ⟨rfl, -⟩ := Prod.mk.inj (Option.some.inj hstep)
      refine hinv.move htask hmoves ?_
        (hinv.still_holds htask hspec (by simp) (by simp))
        (fun _ _ => Iff.rfl) hinv.drainHolds id ?_ (fun _ => rfl) ?_
      · simp [hspec.inFlight]
      · exact fun hwaiting => ⟨hwaiting, hspec.waits (by simp)⟩
      · cases hexception : state.exception with
        | some earlier => exact .inl rfl
        | none =>
            exact .inr ⟨rfl, hinv.threw task
              (List.mem_iff_getElem?.2 ⟨index, htask⟩)
              (.inr (hspec.record rfl))⟩
  | leave =>
      simp only [State.perform] at hstep
      split_ifs at hstep
      obtain ⟨rfl, -⟩ := Prod.mk.inj (Option.some.inj hstep)
      refine hinv.move htask hmoves ?_
        (hinv.still_holds htask hspec (by simp) (by simp))
        (fun _ _ => Iff.rfl) hinv.drainHolds id ?_ (fun _ => rfl) (.inl rfl)
      · simp [hspec.inFlight]
      · exact fun hwaiting => ⟨hwaiting, hspec.waits (by simp)⟩

/-- The submitter, the token or the body decides how a task goes on. -/
theorem DrainInv.choose {state : State} (hinv : DrainInv state) {index : ℕ}
    {task : Task} (htask : state.tasks[index]? = some task)
    {change : Task → Task} (hmoves : state.Moves index task (change task))
    (hinFlight : (change task).phase.inFlight = task.phase.inFlight)
    (hbefore : task.phase.holds = false ∧ task.phase.willNotify = false)
    (hafter : (change task).phase.holds = false) :
    DrainInv { state with tasks := state.tasks.modify index change } := by
  have hmutex : state.mutex ≠ some (.task index) := by
    rw [ne_eq, ← hinv.holds index task htask, hbefore.1]
    simp
  refine hinv.move htask hmoves (by rw [hinFlight]) ?_ (fun _ _ => Iff.rfl)
    hinv.drainHolds id (fun hwaiting => ⟨hwaiting, .inr ⟨rfl, hbefore.2⟩⟩)
    (fun _ => rfl) (.inl rfl)
  simp [hafter, hmutex]

/-- A new task, in flight from the start. -/
theorem DrainInv.submit {state : State} (hinv : DrainInv state)
    {submitter : Option ℕ} (hidle : submitter = none → state.drain = .idle)
    (hrunning : ∀ body, submitter = some body →
      ∃ task, state.tasks[body]? = some task ∧ task.phase = .running) :
    DrainInv { state with
      tasks := state.tasks ++ [{ submitter := submitter }]
      inFlight := state.inFlight + 1 } := by
  have hold : ∀ {index : ℕ} {task : Task}, state.tasks[index]? = some task →
      (state.tasks ++ [{ submitter := submitter }])[index]? = some task := by
    intro index task htask
    rwa [List.getElem?_append_left (List.getElem?_eq_some_iff.1 htask).1]
  have hmem : ∀ {task : Task},
      task ∈ state.tasks ++ [{ submitter := submitter }] →
      task ∈ state.tasks ∨ task = { submitter := submitter } := by
    intro task hmem
    simpa using hmem
  constructor
  · rw [List.countP_append, Nat.cast_add, hinv.counter]
    rfl
  · intro index task htask
    rcases lt_trichotomy index state.tasks.length with hbound | rfl | hbound
    · rw [List.getElem?_append_left hbound] at htask
      exact hinv.holds index task htask
    · obtain rfl : ({ submitter := submitter } : Task) = task := by
        simpa using htask
      have : state.mutex ≠ some (.task state.tasks.length) :=
        fun hmutex => absurd (hinv.holder _ hmutex) (lt_irrefl _)
      simp [Phase.holds, this]
    · rw [List.getElem?_append_right hbound.le, List.getElem?_singleton,
        if_neg (by omega)] at htask
      simp at htask
  · intro index hmutex
    have := hinv.holder index hmutex
    simp
    omega
  · exact hinv.drainHolds
  · intro task htask hsubmits body hbody
    rcases hmem htask with hbefore | rfl
    · obtain ⟨other, hother, hphase⟩ :=
        hinv.nested task hbefore hsubmits body hbody
      exact ⟨other, hold hother, hphase⟩
    · obtain ⟨other, hother, hphase⟩ := hrunning body hbody
      exact ⟨other, hold hother, hphase⟩
  · intro hstarted task htask hsubmits
    rcases hmem htask with hbefore | rfl
    · exact hinv.outer hstarted task hbefore hsubmits
    · exact fun hnone => hstarted (hidle hnone)
  · intro hwaiting hzero
    simp only at hzero
    have := hinv.counter
    omega
  · intro hend task htask
    rcases hmem htask with hbefore | rfl
    · exact hinv.empty hend task hbefore
    · cases submitter with
      | none => simp [hidle rfl] at hend
      | some body =>
          obtain ⟨other, hother, hphase⟩ := hrunning body rfl
          have := hinv.empty hend other (List.mem_iff_getElem?.2 ⟨_, hother⟩)
          simp [hphase, Phase.past] at this
  · intro index hrunner
    obtain ⟨task, htask, hpast⟩ := hinv.runner index hrunner
    exact ⟨task, hold htask, hpast⟩
  · intro task htask hphase
    rcases hmem htask with hbefore | rfl
    · exact hinv.threw task hbefore hphase
    · simp at hphase
  · intro index hlatched
    obtain ⟨task, htask, hthrew⟩ := hinv.latched index hlatched
    exact ⟨task, hold htask, hthrew⟩

/-- The destructor moves on. -/
theorem DrainInv.drainStep {state : State} (hinv : DrainInv state)
    {mutex : Option Holder} {drain : Drain} {runner : Option ℕ}
    (htasks : ∀ index,
      mutex = some (.task index) ↔ state.mutex = some (.task index))
    (hdrain : mutex = some .drain ↔ drain.holds = true)
    (houter : state.drain = .idle → state.unused = true)
    (hwaits : drain = .waiting → state.inFlight ≠ 0)
    (hempty : drain = .unlocking ∨ drain = .drained →
      ∀ task ∈ state.tasks, task.phase.past = true)
    (hrunner : runner = state.runner ∨ ∀ index, runner = some index →
      ∃ task, state.tasks[index]? = some task ∧ task.phase.past = true) :
    DrainInv { state with mutex, drain, runner } where
  counter := hinv.counter
  holds index task htask := by
    rw [hinv.holds index task htask, htasks]
  holder index hmutex := hinv.holder index ((htasks index).1 hmutex)
  drainHolds := hdrain
  nested := hinv.nested
  outer := by
    intro _ task htask hsubmits hnone
    by_cases hidle : state.drain = .idle
    · have := List.all_eq_true.1 (houter hidle) task htask
      simp [hnone, hsubmits] at this
    · exact hinv.outer hidle task htask hsubmits hnone
  waits hwaiting hzero := absurd hzero (hwaits hwaiting)
  empty := hempty
  runner := by
    intro index hindex
    rcases hrunner with hsame | hrunner
    · exact hinv.runner index (hsame ▸ hindex)
    · exact hrunner index hindex
  threw := hinv.threw
  latched := hinv.latched

/-- A zero count leaves the tasks at their notification or past the pool, once
the destructor has started. -/
theorem DrainInv.frozen {state : State} (hinv : DrainInv state)
    (hzero : state.inFlight = 0) (hstarted : state.drain ≠ .idle)
    {task : Task} (htask : task ∈ state.tasks) :
    task.phase = .retired ∨ task.phase = .notified ∨
      task.phase.past = true := by
  have hcount : (state.tasks.countP fun task => task.phase.inFlight) = 0 := by
    have := hinv.counter
    omega
  have hnone : ∀ task ∈ state.tasks, task.phase.inFlight = false := by
    intro task htask
    simpa using List.countP_eq_zero.1 hcount task htask
  have hout : task.phase.inFlight = false := hnone task htask
  have hcall : task.phase.submits = false := by
    cases hsubmits : task.phase.submits with
    | false => rfl
    | true =>
        cases hsubmitter : task.submitter with
        | none =>
            exact absurd hsubmitter (hinv.outer hstarted task htask hsubmits)
        | some body =>
            obtain ⟨other, hother, hphase⟩ :=
              hinv.nested task htask hsubmits body hsubmitter
            have := hnone other (List.mem_iff_getElem?.2 ⟨body, hother⟩)
            simp [hphase, Phase.inFlight] at this
  cases hphase : task.phase <;>
    simp_all [Phase.inFlight, Phase.submits, Phase.past]

/-- With a zero count and the mutex not with a task every task is past the
pool. -/
theorem DrainInv.past_of_zero {state : State} (hinv : DrainInv state)
    (hzero : state.inFlight = 0) (hstarted : state.drain ≠ .idle)
    (hmutex : ∀ index, state.mutex ≠ some (.task index)) :
    ∀ task ∈ state.tasks, task.phase.past = true := by
  intro task htask
  obtain ⟨index, hindex⟩ := List.mem_iff_getElem?.1 htask
  have hfree : task.phase.holds = false := by
    cases hholds : task.phase.holds with
    | false => rfl
    | true => exact absurd (hinv.mutex_of_holds hindex hholds) (hmutex index)
  rcases hinv.frozen hzero hstarted htask with hretired | hnotified | hpast
  · simp [hretired, Phase.holds] at hfree
  · simp [hnotified, Phase.holds] at hfree
  · exact hpast

theorem DrainInv.advanceDrain {state after : State} (hinv : DrainInv state)
    (hstep : state.advanceDrain = some after) : DrainInv after := by
  have hlocks : state.drain ≠ .idle → state.mutex = none →
      DrainInv { state with drain := .checking, mutex := some .drain } := by
    intro hstarted hfree
    exact hinv.drainStep (by simp [hfree]) (by simp [Drain.holds])
      (fun hidle => absurd hidle hstarted) nofun nofun (.inl rfl)
  unfold State.advanceDrain at hstep
  split at hstep
  next => simp at hstep
  next hlocking =>
    split_ifs at hstep with hfree
    obtain rfl := Option.some.inj hstep
    exact hlocks (by simp [hlocking]) hfree
  next hwaking =>
    split_ifs at hstep with hfree
    obtain rfl := Option.some.inj hstep
    exact hlocks (by simp [hwaking]) hfree
  next hchecking =>
    have hmutex : state.mutex = some .drain :=
      hinv.drainHolds.2 (by simp [hchecking, Drain.holds])
    split_ifs at hstep with hzero
    · obtain rfl := Option.some.inj hstep
      have hpast := hinv.past_of_zero hzero (by simp [hchecking])
        (by simp [hmutex])
      exact hinv.drainStep (fun _ => Iff.rfl) (by simp [hmutex, Drain.holds])
        (by simp [hchecking]) nofun (fun _ => hpast) (.inl rfl)
    · obtain rfl := Option.some.inj hstep
      exact hinv.drainStep (by simp [hmutex]) (by simp [Drain.holds])
        (by simp [hchecking]) (fun _ => hzero) nofun (.inl rfl)
  next => simp at hstep
  next hunlocking =>
    have hmutex : state.mutex = some .drain :=
      hinv.drainHolds.2 (by simp [hunlocking, Drain.holds])
    obtain rfl := Option.some.inj hstep
    exact hinv.drainStep (by simp [hmutex]) (by simp [Drain.holds])
      (by simp [hunlocking]) nofun (fun _ => hinv.empty (.inl hunlocking))
      (.inl rfl)
  next => simp at hstep

theorem DrainInv.step {before after : State} {action : Action}
    {event : Option Event} (hinv : DrainInv before)
    (hstep : step before action = some (after, event)) : DrainInv after := by
  cases action with
  | submit submitter =>
      simp only [DetachedTasks.step] at hstep
      split_ifs at hstep with hallowed
      obtain ⟨rfl, -⟩ := Prod.mk.inj (Option.some.inj hstep)
      refine hinv.submit ?_ ?_
      · rintro rfl
        simpa using hallowed
      · rintro body rfl
        simpa [Option.any_eq_true] using hallowed
  | spawn index succeeds =>
      simp only [DetachedTasks.step, Option.bind_eq_bind,
        Option.bind_eq_some_iff] at hstep
      obtain ⟨task, htask, hstep⟩ := hstep
      split at hstep
      next hphase =>
        obtain ⟨rfl, -⟩ := Prod.mk.inj (Option.some.inj hstep)
        cases succeeds <;>
          exact hinv.choose htask
            ⟨rfl, by simp [hphase, Phase.submits], by simp [hphase, Phase.past],
              by simp [hphase], by simp, id⟩
            (by simp [hphase, Phase.inFlight])
            (by simp [hphase, Phase.holds, Phase.willNotify]) rfl
      next => simp at hstep
  | start index stopped =>
      simp only [DetachedTasks.step, Option.bind_eq_bind,
        Option.bind_eq_some_iff] at hstep
      obtain ⟨task, htask, hstep⟩ := hstep
      split at hstep
      next hphase =>
        obtain ⟨rfl, -⟩ := Prod.mk.inj (Option.some.inj hstep)
        cases stopped <;>
          exact hinv.choose htask
            ⟨rfl, by simp [Phase.submits], by simp [hphase, Phase.past],
              by simp [hphase], by simp, id⟩
            (by simp [hphase, Phase.inFlight])
            (by simp [hphase, Phase.holds, Phase.willNotify]) rfl
      next => simp at hstep
  | finish index throws =>
      simp only [DetachedTasks.step, Option.bind_eq_bind,
        Option.bind_eq_some_iff] at hstep
      obtain ⟨task, htask, hstep⟩ := hstep
      split at hstep
      next hphase =>
        obtain ⟨hphase, hreturned⟩ := hphase
        obtain ⟨rfl, -⟩ := Prod.mk.inj (Option.some.inj hstep)
        cases throws <;>
          exact hinv.choose htask
            ⟨rfl, by simp [Phase.submits], by simp [hphase, Phase.past],
              fun _ => .inr hreturned, by simp, by simp +contextual⟩
            (by simp [hphase, Phase.inFlight])
            (by simp [hphase, Phase.holds, Phase.willNotify]) rfl
      next => simp at hstep
  | advance index =>
      simp only [DetachedTasks.step, Option.bind_eq_bind,
        Option.bind_eq_some_iff] at hstep
      obtain ⟨task, htask, ⟨op, phase⟩, hnext, hstep⟩ := hstep
      exact hinv.perform htask hnext hstep
  | destroy runner =>
      simp only [DetachedTasks.step] at hstep
      split_ifs at hstep with hallowed
      obtain ⟨rfl, -⟩ := Prod.mk.inj (Option.some.inj hstep)
      obtain ⟨hidle, hunused, hrunner⟩ := hallowed
      have hfree : before.mutex ≠ some .drain := by
        rw [ne_eq, hinv.drainHolds, hidle]
        simp [Drain.holds]
      refine hinv.drainStep (fun _ => Iff.rfl) (by simp [hfree, Drain.holds])
        (fun _ => hunused) nofun nofun (.inr ?_)
      rintro index rfl
      obtain ⟨task, htask, hphase⟩ : ∃ task,
          before.tasks[index]? = some task ∧
            (task.phase = .released ∨ task.phase = .unwinding) := by
        simpa [Option.any_eq_true] using hrunner
      refine ⟨task, htask, ?_⟩
      rcases hphase with hphase | hphase <;> rw [hphase] <;> rfl
  | drain =>
      simp only [DetachedTasks.step, Option.map_eq_some_iff,
        Prod.mk.injEq] at hstep
      obtain ⟨next, hnext, rfl, -⟩ := hstep
      exact hinv.advanceDrain hnext
  | wake =>
      simp only [DetachedTasks.step] at hstep
      split_ifs at hstep with hwaiting
      obtain ⟨rfl, -⟩ := Prod.mk.inj (Option.some.inj hstep)
      have hfree := hinv.drainHolds
      rw [hwaiting] at hfree
      exact hinv.drainStep (fun _ => Iff.rfl) hfree (by simp [hwaiting]) nofun
        nofun (.inl rfl)

/-! ## What a run records -/

/-- The invariant with the history: who retired, and what was recorded. -/
structure RunInv (trace : List Event) (state : State) : Prop where
  drain : DrainInv state
  retired : ∀ index, .retired index ∈ trace →
    ∃ task, state.tasks[index]? = some task ∧ task.phase.past = true
  exception : state.exception = trace.findSome? Event.records

/-- Tasks that are past the pool stay so. -/
def PastKept (before after : List Task) : Prop :=
  ∀ (index : ℕ) (task : Task), before[index]? = some task →
    task.phase.past = true →
    ∃ later, after[index]? = some later ∧ later.phase.past = true

/-- What a step adds to the history. -/
structure StepSpec (before after : State) (event : Option Event) : Prop where
  past : PastKept before.tasks after.tasks
  exception : after.exception =
    before.exception.or (event.bind Event.records)
  uses : ∀ used, event = some used → ∀ task,
    before.tasks[used.task]? = some task → task.phase.past = false
  retires : ∀ index, event = some (.retired index) →
    ∃ task, after.tasks[index]? = some task ∧ task.phase.past = true

/-- A step without an event that keeps what is past. -/
theorem StepSpec.silent {before after : State}
    (hpast : PastKept before.tasks after.tasks)
    (hexception : after.exception = before.exception) :
    StepSpec before after none :=
  ⟨hpast, by simp [hexception], nofun, nofun⟩

/-- One task changes, and is past afterwards if it was before. -/
theorem past_modify {tasks : List Task} {index : ℕ} {task : Task}
    {change : Task → Task} (htask : tasks[index]? = some task)
    (hchange : task.phase.past = true → (change task).phase.past = true) :
    PastKept tasks (tasks.modify index change) := by
  intro position other hother hpast
  by_cases hne : index = position
  · subst hne
    obtain rfl : task = other := by simpa [htask] using hother
    exact ⟨change task, by simp [htask], hchange hpast⟩
  · exact ⟨other, by rwa [List.getElem?_modify_ne _ _ hne], hpast⟩

theorem perform_spec {before after : State} {index : ℕ} {task : Task}
    {phase : Phase} {op : Op} {event : Option Event}
    (htask : before.tasks[index]? = some task)
    (hnext : task.phase.next = some (op, phase))
    (hstep : before.perform index phase op = some (after, event)) :
    StepSpec before after event := by
  have hspec := Phase.next_spec hnext
  have hpast : PastKept before.tasks (before.at index phase).tasks :=
    past_modify htask hspec.past
  have huses : op ≠ .leave → ∀ used : Event, used.task = index →
      ∀ other, before.tasks[used.task]? = some other →
      other.phase.past = false := by
    rintro hop used rfl other hother
    obtain rfl : task = other := by simpa [htask] using hother
    exact hspec.retires hop
  cases op with
  | lock =>
      simp only [State.perform] at hstep
      split_ifs at hstep
      obtain ⟨rfl, rfl⟩ := Prod.mk.inj (Option.some.inj hstep)
      refine ⟨hpast, by simp [Event.records], ?_, by simp⟩
      rintro used ⟨⟩
      exact huses (by simp) _ rfl
  | unlock =>
      obtain ⟨rfl, rfl⟩ := Prod.mk.inj (Option.some.inj hstep)
      refine ⟨hpast, ?_, ?_, ?_⟩
      · split <;> simp [Event.records]
      · rintro used hused
        refine huses (by simp) used ?_
        obtain rfl := Option.some.inj hused
        split <;> rfl
      · intro position hretired
        split at hretired
        next hafter =>
          obtain rfl : index = position := by simpa using hretired
          refine ⟨{ task with phase }, ?_, hafter⟩
          simp [State.at, htask]
        next => simp at hretired
  | countOut =>
      obtain ⟨rfl, rfl⟩ := Prod.mk.inj (Option.some.inj hstep)
      refine ⟨hpast, by simp [Event.records], ?_, by simp⟩
      rintro used ⟨⟩
      exact huses (by simp) _ rfl
  | notify =>
      obtain ⟨rfl, rfl⟩ := Prod.mk.inj (Option.some.inj hstep)
      have htasks : before.notifyAll.tasks = before.tasks := by
        unfold State.notifyAll
        split <;> rfl
      have hexception : before.notifyAll.exception = before.exception := by
        unfold State.notifyAll
        split <;> rfl
      refine ⟨?_, by simp [Event.records, hexception], ?_, by simp⟩
      · simpa only [State.at, htasks] using hpast
      · rintro used ⟨⟩
        exact huses (by simp) _ rfl
  | record =>
      obtain ⟨rfl, rfl⟩ := Prod.mk.inj (Option.some.inj hstep)
      refine ⟨hpast, by simp [Event.records], ?_, by simp⟩
      rintro used ⟨⟩
      exact huses (by simp) _ rfl
  | leave =>
      simp only [State.perform] at hstep
      split_ifs at hstep
      obtain ⟨rfl, rfl⟩ := Prod.mk.inj (Option.some.inj hstep)
      exact .silent hpast rfl

theorem pastKept_refl (tasks : List Task) : PastKept tasks tasks :=
  fun _ task htask hpast => ⟨task, htask, hpast⟩

theorem advanceDrain_kept {before after : State}
    (hstep : before.advanceDrain = some after) :
    after.tasks = before.tasks ∧ after.exception = before.exception := by
  unfold State.advanceDrain at hstep
  split at hstep
  all_goals (try split_ifs at hstep)
  all_goals (try simp at hstep)
  all_goals (subst hstep; exact ⟨rfl, rfl⟩)

theorem step_spec {before after : State} {action : Action}
    {event : Option Event}
    (hstep : step before action = some (after, event)) :
    StepSpec before after event := by
  have hchoice : ∀ {index : ℕ} {task : Task} {change : Task → Task},
      before.tasks[index]? = some task → task.phase.past = false →
      StepSpec before
        { before with tasks := before.tasks.modify index change } none := by
    intro index task change htask hpast
    refine .silent (past_modify htask fun htrue => ?_) rfl
    simp [hpast] at htrue
  cases action with
  | submit submitter =>
      simp only [step] at hstep
      split_ifs at hstep
      obtain ⟨rfl, rfl⟩ := Prod.mk.inj (Option.some.inj hstep)
      refine ⟨?_, by simp [Event.records], ?_, by simp⟩
      · intro index task htask hpast
        refine ⟨task, ?_, hpast⟩
        rwa [List.getElem?_append_left (List.getElem?_eq_some_iff.1 htask).1]
      · rintro used ⟨⟩ task htask
        simp [Event.task] at htask
  | spawn index succeeds =>
      simp only [step, Option.bind_eq_bind, Option.bind_eq_some_iff] at hstep
      obtain ⟨task, htask, hstep⟩ := hstep
      split at hstep
      next hphase =>
        obtain ⟨rfl, rfl⟩ := Prod.mk.inj (Option.some.inj hstep)
        exact hchoice htask (by rw [hphase]; rfl)
      next => simp at hstep
  | start index stopped =>
      simp only [step, Option.bind_eq_bind, Option.bind_eq_some_iff] at hstep
      obtain ⟨task, htask, hstep⟩ := hstep
      split at hstep
      next hphase =>
        obtain ⟨rfl, rfl⟩ := Prod.mk.inj (Option.some.inj hstep)
        exact hchoice htask (by rw [hphase]; rfl)
      next => simp at hstep
  | finish index throws =>
      simp only [step, Option.bind_eq_bind, Option.bind_eq_some_iff] at hstep
      obtain ⟨task, htask, hstep⟩ := hstep
      split at hstep
      next hphase =>
        obtain ⟨rfl, rfl⟩ := Prod.mk.inj (Option.some.inj hstep)
        exact hchoice htask (by rw [hphase.1]; rfl)
      next => simp at hstep
  | advance index =>
      simp only [step, Option.bind_eq_bind, Option.bind_eq_some_iff] at hstep
      obtain ⟨task, htask, ⟨op, phase⟩, hnext, hstep⟩ := hstep
      exact perform_spec htask hnext hstep
  | destroy runner =>
      simp only [step] at hstep
      split_ifs at hstep
      obtain ⟨rfl, rfl⟩ := Prod.mk.inj (Option.some.inj hstep)
      exact .silent (pastKept_refl _) rfl
  | drain =>
      simp only [step, Option.map_eq_some_iff, Prod.mk.injEq] at hstep
      obtain ⟨next, hnext, rfl, rfl⟩ := hstep
      obtain ⟨htasks, hexception⟩ := advanceDrain_kept hnext
      exact .silent (htasks ▸ pastKept_refl _) hexception
  | wake =>
      simp only [step] at hstep
      split_ifs at hstep
      obtain ⟨rfl, rfl⟩ := Prod.mk.inj (Option.some.inj hstep)
      exact .silent (pastKept_refl _) rfl

theorem RunInv.step {trace : List Event} {before after : State}
    {action : Action} {event : Option Event} (hinv : RunInv trace before)
    (hstep : step before action = some (after, event)) :
    RunInv (trace ++ event.toList) after := by
  have hspec := step_spec hstep
  refine ⟨hinv.drain.step hstep, fun index hretired => ?_, ?_⟩
  · rcases List.mem_append.1 hretired with hearlier | hnow
    · obtain ⟨task, htask, hpast⟩ := hinv.retired index hearlier
      exact hspec.past index task htask hpast
    · exact hspec.retires index (by simpa using hnow)
  · rw [hspec.exception, hinv.exception, List.findSome?_append]
    cases event <;> simp

theorem runInv_start : RunInv [] {} where
  drain := by
    constructor <;> simp [Drain.holds]
  retired := nofun
  exception := rfl

theorem runInv_of_run {trace : List Event} {state : State}
    (run : Reaches detached {} trace state) : RunInv trace state :=
  run.invariant RunInv runInv_start fun hinv _ hstep => hinv.step hstep

/-- What the invariant says about the lifecycle. -/
theorem detachedSound_of_reaches {trace : List Event} {state : State}
    (run : Reaches detached {} trace state) : DetachedSound trace state := by
  have hinv := runInv_of_run run
  have hexception := hinv.exception
  constructor
  · exact hinv.drain.counter
  · exact fun hdrained => hinv.drain.empty (.inr hdrained)
  · exact hinv.drain.waits
  · intro index hrunner
    obtain ⟨task, htask, hpast⟩ := hinv.drain.runner index hrunner
    refine ⟨task, htask, ?_⟩
    cases hphase : task.phase <;> simp_all [Phase.past, Phase.inFlight]
  · rintro earlier later rfl index hfirst
    rw [hexception, List.findSome?_append, hfirst]
    rfl
  · intro index hlatched
    exact ⟨hexception ▸ hlatched, hinv.drain.latched index hlatched⟩
  · refine run.at_event RunInv
      (fun earlier event => .retired event.task ∉ earlier)
      (fun hrun => runInv_of_run hrun) ?_
    intro trace before action after event hbefore _ hstep hretired
    obtain ⟨task, htask, hpast⟩ := hbefore.retired event.task hretired
    have := (step_spec hstep).uses event rfl task htask
    simp [hpast] at this

/-! ## A zero count wakes the destructor -/

/-- The destructor has started and no task is in flight. -/
structure Draining (state : State) : Prop where
  inv : DrainInv state
  started : state.drain ≠ .idle
  zero : state.inFlight = 0

/-- The steps left to the destructor. -/
def Drain.rank : Drain → ℕ
  | .waiting => 4
  | .locking | .waking => 3
  | .checking => 2
  | .unlocking => 1
  | .idle | .drained => 0

/-- The steps a holder of the mutex has left until it unlocks. -/
def Phase.rank : Phase → ℕ
  | .retired => 2
  | .notified => 1
  | _ => 0

def State.holderRank (state : State) : ℕ :=
  match state.mutex with
  | some (.task index) => ((state.tasks[index]?).map (·.phase.rank)).getD 0
  | _ => 0

def rank (state : State) : ℕ := state.drain.rank + state.holderRank

/-- Whoever holds the mutex, or else the destructor. -/
def helper (state : State) : Party :=
  .holder (state.mutex.getD .drain)

theorem Draining.helper_enabled {state : State} (hdraining : Draining state)
    (hopen : state.drain ≠ .drained) :
    ∃ action, action.owner = helper state ∧ step state action ≠ none := by
  obtain ⟨hinv, hstarted, hzero⟩ := hdraining
  cases hmutex : state.mutex with
  | none =>
      refine ⟨.drain, by simp [Action.owner, helper, hmutex], ?_⟩
      have hfree := hinv.drain_free (by simp [hmutex])
      cases hdrain : state.drain with
      | idle => exact absurd hdrain hstarted
      | locking => simp [step, State.advanceDrain, hdrain, hmutex]
      | waking => simp [step, State.advanceDrain, hdrain, hmutex]
      | checking => simp [hdrain, Drain.holds] at hfree
      | unlocking => simp [hdrain, Drain.holds] at hfree
      | drained => exact absurd hdrain hopen
      | waiting =>
          obtain ⟨task, htask, hwill⟩ := hinv.waits hdrain hzero
          have hpast := hinv.past_of_zero hzero hstarted (by simp [hmutex])
            task htask
          cases hphase : task.phase <;>
            simp_all [Phase.willNotify, Phase.past]
  | some holder =>
      cases holder with
      | drain =>
          refine ⟨.drain, by simp [Action.owner, helper, hmutex], ?_⟩
          have hholds := hinv.drainHolds.1 hmutex
          cases hdrain : state.drain <;>
            simp_all [Drain.holds, step, State.advanceDrain]
      | task index =>
          refine ⟨.advance index, by simp [Action.owner, helper, hmutex], ?_⟩
          obtain ⟨task, htask⟩ : ∃ task, state.tasks[index]? = some task :=
            ⟨_, List.getElem?_eq_getElem (hinv.holder index hmutex)⟩
          have hholds := (hinv.holds index task htask).2 hmutex
          rcases hinv.frozen hzero hstarted
              (List.mem_iff_getElem?.2 ⟨index, htask⟩) with
            hphase | hphase | hpast
          · simp [step, htask, hphase, Phase.next, State.perform]
          · simp [step, htask, hphase, Phase.next, State.perform]
          · cases hphase : task.phase <;> simp_all [Phase.past, Phase.holds]

/-- What a step of a draining pool does. -/
structure Drains (before after : State) (action : Action) : Prop where
  started : after.drain ≠ .idle
  zero : after.inFlight = 0
  progress : rank after < rank before ∨
    action.owner ≠ helper before ∧ rank after = rank before ∧
      helper after = helper before

theorem Draining.perform {before after : State} {event : Option Event}
    (hdraining : Draining before) {index : ℕ} {task : Task}
    (htask : before.tasks[index]? = some task) {op : Op} {phase : Phase}
    (hnext : task.phase.next = some (op, phase))
    (hstep : before.perform index phase op = some (after, event)) :
    Drains before after (.advance index) := by
  obtain ⟨hinv, hstarted, hzero⟩ := hdraining
  have hholder : task.phase.holds = true →
      before.mutex = some (.task index) := hinv.mutex_of_holds htask
  rcases hinv.frozen hzero hstarted
      (List.mem_iff_getElem?.2 ⟨index, htask⟩) with hphase | hphase | hpast
  · -- the notification
    obtain ⟨rfl, rfl⟩ : Op.notify = op ∧ Phase.notified = phase := by
      simpa [hphase, Phase.next] using hnext
    obtain ⟨rfl, -⟩ := Prod.mk.inj (Option.some.inj hstep)
    have hmutex := hholder (by rw [hphase]; rfl)
    by_cases hwaiting : before.drain = .waiting
    · refine ⟨by simp [State.notifyAll, hwaiting],
        by simp [State.notifyAll, hwaiting, hzero], .inl ?_⟩
      simp [rank, State.holderRank, State.notifyAll, hwaiting, hmutex, htask,
        hphase, Phase.rank, Drain.rank, State.at]
    · refine ⟨by simp [State.notifyAll, hwaiting, hstarted],
        by simp [State.notifyAll, hwaiting, hzero], .inl ?_⟩
      simp [rank, State.holderRank, State.notifyAll, hwaiting, hmutex, htask,
        hphase, Phase.rank, State.at]
  · -- the unlock
    obtain ⟨rfl, rfl⟩ : Op.unlock = op ∧ Phase.released = phase := by
      simpa [hphase, Phase.next] using hnext
    obtain ⟨rfl, -⟩ := Prod.mk.inj (Option.some.inj hstep)
    have hmutex := hholder (by rw [hphase]; rfl)
    refine ⟨hstarted, hzero, .inl ?_⟩
    simp [rank, State.holderRank, hmutex, htask, hphase, Phase.rank]
  · -- the closure goes
    obtain ⟨rfl, rfl⟩ : Op.leave = op ∧ Phase.done = phase := by
      cases hphase : task.phase <;> simp_all [Phase.past, Phase.next]
    simp only [State.perform] at hstep
    split_ifs at hstep
    obtain ⟨rfl, -⟩ := Prod.mk.inj (Option.some.inj hstep)
    have hmutex : before.mutex ≠ some (.task index) := by
      rw [ne_eq, ← hinv.holds index task htask]
      cases hphase : task.phase <;> simp_all [Phase.past, Phase.holds]
    refine ⟨hstarted, hzero, .inr ⟨?_, ?_, rfl⟩⟩
    · cases hholder : before.mutex with
      | none => simp [Action.owner, helper, hholder]
      | some holder =>
          rintro howner
          obtain rfl : Holder.task index = holder := by
            simpa [Action.owner, helper, hholder] using howner
          exact hmutex hholder
    · cases hholder : before.mutex with
      | none => simp [rank, State.holderRank, hholder]
      | some holder =>
          cases holder with
          | drain => simp [rank, State.holderRank, hholder]
          | task other =>
              have hne : index ≠ other := by
                rintro rfl
                exact hmutex hholder
              simp [rank, State.holderRank, hholder, State.at,
                List.getElem?_modify_ne _ _ hne]

theorem Draining.advanceDrain {before after : State}
    (hdraining : Draining before) (hstep : before.advanceDrain = some after)
    (action : Action) : Drains before after action := by
  obtain ⟨hinv, hstarted, hzero⟩ := hdraining
  have hheld : before.drain.holds = true → before.mutex = some .drain :=
    hinv.drainHolds.2
  unfold State.advanceDrain at hstep
  split at hstep
  next => simp at hstep
  next hlocking =>
    split_ifs at hstep with hfree
    obtain rfl := Option.some.inj hstep
    exact ⟨by simp, hzero, .inl (by
      simp [rank, State.holderRank, hfree, hlocking, Drain.rank])⟩
  next hwaking =>
    split_ifs at hstep with hfree
    obtain rfl := Option.some.inj hstep
    exact ⟨by simp, hzero, .inl (by
      simp [rank, State.holderRank, hfree, hwaking, Drain.rank])⟩
  next hchecking =>
    have hmutex := hheld (by simp [hchecking, Drain.holds])
    rw [if_pos hzero] at hstep
    obtain rfl := Option.some.inj hstep
    exact ⟨by simp, hzero, .inl (by
      simp [rank, State.holderRank, hmutex, hchecking, Drain.rank])⟩
  next => simp at hstep
  next hunlocking =>
    have hmutex := hheld (by simp [hunlocking, Drain.holds])
    obtain rfl := Option.some.inj hstep
    exact ⟨by simp, hzero, .inl (by
      simp [rank, State.holderRank, hmutex, hunlocking, Drain.rank])⟩
  next => simp at hstep

/-- A zero count stays zero, and every step brings the destructor on or
leaves the helper its turn. -/
theorem Draining.step {before after : State} {action : Action}
    {event : Option Event} (hdraining : Draining before)
    (hstep : step before action = some (after, event)) :
    Drains before after action := by
  obtain ⟨hinv, hstarted, hzero⟩ := hdraining
  have hout : ∀ {index : ℕ} {task : Task},
      before.tasks[index]? = some task → task.phase ≠ .counted ∧
        task.phase ≠ .spawned ∧ task.phase ≠ .running := by
    intro index task htask
    rcases hinv.frozen hzero hstarted
        (List.mem_iff_getElem?.2 ⟨index, htask⟩) with hphase | hphase | hpast
    · simp [hphase]
    · simp [hphase]
    · refine ⟨?_, ?_, ?_⟩ <;> rintro hphase <;> simp [hphase, Phase.past] at hpast
  cases action with
  | submit submitter =>
      simp only [DetachedTasks.step] at hstep
      split_ifs at hstep with hallowed
      cases submitter with
      | none => exact absurd (by simpa using hallowed) hstarted
      | some body =>
          obtain ⟨task, htask, hphase⟩ : ∃ task,
              before.tasks[body]? = some task ∧ task.phase = .running := by
            simpa [Option.any_eq_true] using hallowed
          exact absurd hphase (hout htask).2.2
  | spawn index succeeds =>
      simp only [DetachedTasks.step, Option.bind_eq_bind,
        Option.bind_eq_some_iff] at hstep
      obtain ⟨task, htask, hstep⟩ := hstep
      rw [if_neg (hout htask).1] at hstep
      simp at hstep
  | start index stopped =>
      simp only [DetachedTasks.step, Option.bind_eq_bind,
        Option.bind_eq_some_iff] at hstep
      obtain ⟨task, htask, hstep⟩ := hstep
      rw [if_neg (hout htask).2.1] at hstep
      simp at hstep
  | finish index throws =>
      simp only [DetachedTasks.step, Option.bind_eq_bind,
        Option.bind_eq_some_iff] at hstep
      obtain ⟨task, htask, hstep⟩ := hstep
      rw [if_neg fun hphase => (hout htask).2.2 hphase.1] at hstep
      simp at hstep
  | advance index =>
      simp only [DetachedTasks.step, Option.bind_eq_bind,
        Option.bind_eq_some_iff] at hstep
      obtain ⟨task, htask, ⟨op, phase⟩, hnext, hstep⟩ := hstep
      exact Draining.perform ⟨hinv, hstarted, hzero⟩ htask hnext hstep
  | destroy runner =>
      simp only [DetachedTasks.step] at hstep
      rw [if_neg fun hidle => hstarted hidle.1] at hstep
      simp at hstep
  | drain =>
      simp only [DetachedTasks.step, Option.map_eq_some_iff,
        Prod.mk.injEq] at hstep
      obtain ⟨next, hnext, rfl, -⟩ := hstep
      exact Draining.advanceDrain ⟨hinv, hstarted, hzero⟩ hnext .drain
  | wake =>
      simp only [DetachedTasks.step] at hstep
      split_ifs at hstep with hwaiting
      obtain ⟨rfl, -⟩ := Prod.mk.inj (Option.some.inj hstep)
      exact ⟨by simp, hzero, .inl (by
        simp [rank, State.holderRank, hwaiting, Drain.rank])⟩

/-- In every run the lifecycle is sound, and from every state it reaches in
which the destructor has started and the count is zero, every fair run takes
the destructor out of its wait. -/
theorem detachedSound_of_run {trace : List Event} {state : State}
    (run : Reaches detached {} trace state) :
    DetachedSound trace state ∧
      (state.drain ≠ .idle → state.inFlight = 0 →
        ∀ fair : FairRun detached (fun _ _ => True) Action.owner state,
          ∃ time, (fair.state time).drain = .drained) := by
  refine ⟨detachedSound_of_reaches run, fun hstarted hzero fair => ?_⟩
  have hstart : Draining state :=
    ⟨(runInv_of_run run).drain, hstarted, hzero⟩
  refine fair.reaches_goal Draining (fun state => state.drain = .drained)
    helper rank hstart ?_ (fun hdraining hopen =>
      hdraining.helper_enabled hopen) ?_
  · intro before action after event hdraining _ hstep
    have hdrains := hdraining.step hstep
    exact ⟨hdraining.inv.step hstep, hdrains.started, hdrains.zero⟩
  · intro before action after event hdraining _ _ hstep
    exact .inr (hdraining.step hstep).progress

/-- A body submits a second task whose spawn fails and then throws; the pool
goes in the closure of the task, while a third one is being counted out. -/
def closureDestroys : List Action :=
  List.flatten
    [[.submit none, .spawn 0 true, .submit none, .spawn 1 true, .start 0 false,
      .submit (some 0), .spawn 2 false],
      List.replicate 5 (.advance 2),
      [.start 1 true, .finish 0 true],
      List.replicate 7 (.advance 0),
      [.destroy (some 0), .drain, .drain],
      List.replicate 4 (.advance 1),
      List.replicate 3 .drain,
      [.advance 0, .advance 1]]

theorem detachedSound_closureDestroys :
    ∃ trace state, Reaches detached {} trace state ∧
      DetachedSound trace state ∧ state.drain = .drained ∧
      state.runner = some 0 ∧ state.exception = some 0 := by
  obtain ⟨trace, state, run, hcheck⟩ :=
    reaches_of_check detached {} closureDestroys
      (fun _ state => decide (state.drain = .drained ∧
        state.runner = some 0 ∧ state.exception = some 0))
      (by decide +kernel)
  exact ⟨trace, state, run, (detachedSound_of_run run).1,
    of_decide_eq_true hcheck⟩

end Citor.DetachedTasks
