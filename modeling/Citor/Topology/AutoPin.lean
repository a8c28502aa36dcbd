import Citor.Core.Interleaving

/-!
# Pinning the producer and giving its mask back

The first dispatch of a thread on a pool pins the thread to the CPU of slot 0.
The mask to go back to is kept twice: in a record of the thread, which pools
hand over to one another, and in a mirror inside the pool, from which the
destructor restores.
-/

namespace Citor.AutoPin

open Citor.Interleaving

abbrev CpuSet := Finset ℕ

/-! ## Threads and pools -/

/-- The thread-local record of the auto-pin; `pool` is an address compared for
equality only. -/
structure AutoPinState where
  saved : CpuSet := ∅
  pool : Option ℕ := none
  restorePending : Bool := false
deriving DecidableEq

/-- A live thread.  `own` is the mask it had before citor pinned it, or has set
itself since; `pinned` says that citor has set its mask and not written one
back. -/
structure Thread where
  affinity : CpuSet
  autoPinTls : AutoPinState := {}
  own : CpuSet
  pinned : Bool := false
deriving DecidableEq

/-- The part of a pool the pinning reads: the CPU of slot 0, if one could be
assigned, and the mirror of the pin record. -/
structure Pool where
  producerCpu : Option ℕ
  autoPinActive : Bool := false
  autoPinProducer : ℕ := 0
  autoPinSaved : CpuSet := ∅
deriving DecidableEq

/-- What the kernel answers to the two affinity calls of a pin. -/
structure Syscalls where
  getaffinity : Bool := true
  setaffinity : Bool := true
deriving DecidableEq

/-- The pinner goes through to the pin. -/
def Pool.pins (pool : Pool) (thread : Thread) (calls : Syscalls) : Bool :=
  pool.producerCpu.isSome && calls.getaffinity &&
    decide (1 < thread.affinity.card) && calls.setaffinity

/-- Pin the calling thread `self` to slot 0 of the pool at address `this`. -/
def autoPinProducerOnce (this self : ℕ) (calls : Syscalls) (pool : Pool)
    (thread : Thread) : Pool × Thread :=
  match pool.producerCpu with
  | none => (pool, thread)
  | some cpuId =>
      if calls.getaffinity = false then (pool, thread)
      else if thread.affinity.card ≤ 1 then
        -- Already pinned: take the tag over and keep the saved mask.
        (pool, { thread with
          autoPinTls := { thread.autoPinTls with pool := some this } })
      else if calls.setaffinity = false then (pool, thread)
      else
        let saved := if thread.autoPinTls.restorePending
          then thread.autoPinTls.saved else thread.affinity
        ({ pool with
            autoPinActive := true
            autoPinProducer := self
            autoPinSaved := saved },
          { thread with
            affinity := {cpuId}
            autoPinTls := { saved, pool := some this, restorePending := true }
            pinned := true })

/-- The gate in front of the pinner. -/
def ensureProducerPinnedForChunkZero (this self : ℕ) (calls : Syscalls)
    (pool : Pool) (thread : Thread) : Pool × Thread :=
  if thread.autoPinTls.pool ≠ some this then
    autoPinProducerOnce this self calls pool thread
  else (pool, thread)

/-- A thread whose mask citor writes back. -/
def Thread.restore (thread : Thread) (saved : CpuSet) : Thread :=
  { thread with affinity := saved, pinned := false }

/-- A destroying thread clears its record when the tag names the pool. -/
def Thread.clearTag (thread : Thread) (this : ℕ) : Thread :=
  if thread.autoPinTls.pool = some this then
    { thread with
      autoPinTls := { thread.autoPinTls with
        restorePending := false, pool := none } }
  else thread

/-! ## Histories -/

structure State where
  threads : ℕ → Option Thread := fun _ => none
  pools : ℕ → Option Pool := fun _ => none

/-- A mask written back to a thread, next to the thread's own. -/
structure Event where
  thread : ℕ
  saved : CpuSet
  own : CpuSet
deriving DecidableEq

inductive Action where
  /-- A thread starts with a mask of its own. -/
  | start (self : ℕ) (mask : CpuSet)
  | exit (self : ℕ)
  /-- The mask of a thread is set outside citor. -/
  | setAffinity (self : ℕ) (mask : CpuSet)
  | construct (self this : ℕ) (producerCpu : Option ℕ) (calls : Syscalls)
  /-- A primitive that splits its range over all participants. -/
  | dispatch (self this : ℕ) (calls : Syscalls)
  | destroy (self this : ℕ)
deriving DecidableEq

def State.setThread (state : State) (self : ℕ) (thread : Option Thread) :
    State :=
  { state with threads := Function.update state.threads self thread }

def State.setPool (state : State) (this : ℕ) (pool : Option Pool) : State :=
  { state with pools := Function.update state.pools this pool }

/-- The state after a call of the pinner or its gate. -/
def State.record (state : State) (this self : ℕ) (after : Pool × Thread) :
    State :=
  (state.setPool this (some after.1)).setThread self (some after.2)

/-- `pthread_setaffinity_np` of the mirrored mask on the mirrored producer. -/
def State.restore (state : State) (pool : Pool) : State × Option Event :=
  if pool.autoPinActive then
    match state.threads pool.autoPinProducer with
    | none => (state, none)
    | some producer =>
        (state.setThread pool.autoPinProducer
            (some (producer.restore pool.autoPinSaved)),
          some ⟨pool.autoPinProducer, pool.autoPinSaved, producer.own⟩)
  else (state, none)

/-- The restore of the destructor, run by `self`. -/
def autoPinRestoreIfOurs (this self : ℕ) (pool : Pool) (state : State) :
    State × Option Event :=
  let (after, event) := state.restore pool
  (after.setThread self ((after.threads self).map (·.clearTag this)), event)

def step (state : State) : Action → Option (State × Option Event)
  | .start self mask =>
      match state.threads self with
      | none => some (state.setThread self
          (some { affinity := mask, own := mask }), none)
      | some _ => none
  | .exit self =>
      (state.threads self).map fun _ => (state.setThread self none, none)
  | .setAffinity self mask =>
      (state.threads self).map fun thread =>
        (state.setThread self
          (some { thread with affinity := mask, own := mask }), none)
  | .construct self this producerCpu calls =>
      match state.threads self, state.pools this with
      | some thread, none =>
          some (state.record this self
            (autoPinProducerOnce this self calls { producerCpu } thread), none)
      | _, _ => none
  | .dispatch self this calls =>
      match state.threads self, state.pools this with
      | some thread, some pool =>
          some (state.record this self
            (ensureProducerPinnedForChunkZero this self calls pool thread),
            none)
      | _, _ => none
  | .destroy self this =>
      match state.threads self, state.pools this with
      | some _, some pool =>
          let (after, event) := autoPinRestoreIfOurs this self pool state
          some (after.setPool this none, event)
      | _, _ => none

/-- Any number of threads and pools, every pool at an address of its own. -/
def history : Machine State Action Event := ⟨step⟩

/-- Nothing outside citor sets the mask of a thread that citor has pinned. -/
def Undisturbed (state : State) : Action → Prop
  | .setAffinity self _ => ∀ thread, state.threads self = some thread →
      thread.pinned = false
  | _ => True

/-- Once every pool is destroyed the live threads have their own masks back,
and every mask written back is the thread's own. -/
structure AutoPinSound (trace : List Event) (state : State) : Prop where
  restored : (∀ this, state.pools this = none) →
    ∀ self thread, state.threads self = some thread →
      thread.affinity = thread.own
  writtenBack : ∀ event ∈ trace, event.saved = event.own

/-! ## Failing histories -/

/-- Two threads produce for one pool: the mirror keeps the second one only. -/
def secondProducer : List Action :=
  [.start 1 {0, 1}, .start 2 {0, 1}, .construct 1 0 (some 0) {},
    .dispatch 2 0 {}, .destroy 1 0]

/-- A pool that only holds the tag outlives the pool that pinned the thread,
so the record stays pending after the restore. -/
def staleRecord : List Action :=
  [.start 1 {0, 1}, .construct 1 0 (some 0) {}, .construct 1 1 (some 0) {},
    .destroy 1 0, .setAffinity 1 {0, 1, 2}, .construct 1 0 (some 0) {},
    .destroy 1 0]

/-- `Undisturbed` as a test. -/
def undisturbed (state : State) : Action → Bool
  | .setAffinity self _ =>
      (state.threads self).all fun thread => !thread.pinned
  | _ => true

theorem undisturbed_of_check {state : State} {action : Action}
    (hcheck : undisturbed state action = true) : Undisturbed state action := by
  cases action with
  | setAffinity self mask =>
      intro thread hthread
      simpa [undisturbed, hthread] using hcheck
  | _ => trivial

/-- The address of the pool an action is about. -/
def Action.pool : Action → ℕ
  | .construct _ this _ _ | .dispatch _ this _ | .destroy _ this => this
  | _ => 0

@[simp] theorem setThread_pools (state : State) (self : ℕ)
    (thread : Option Thread) :
    (state.setThread self thread).pools = state.pools := rfl

@[simp] theorem setPool_threads (state : State) (this : ℕ)
    (pool : Option Pool) :
    (state.setPool this pool).threads = state.threads := rfl

@[simp] theorem restore_pools (state : State) (pool : Pool) :
    (state.restore pool).1.pools = state.pools := by
  unfold State.restore
  split
  · split <;> rfl
  · rfl

@[simp] theorem autoPinRestoreIfOurs_pools (this self : ℕ) (pool : Pool)
    (state : State) :
    (autoPinRestoreIfOurs this self pool state).1.pools = state.pools := by
  simp [autoPinRestoreIfOurs]

section Inversion

variable {before after : State} {event : Option Event}

theorem step_start {self : ℕ} {mask : CpuSet}
    (hstep : step before (.start self mask) = some (after, event)) :
    before.threads self = none ∧ event = none ∧
      after = before.setThread self
        (some { affinity := mask, own := mask }) := by
  simp only [step] at hstep
  split at hstep
  next hnone =>
    obtain ⟨rfl, rfl⟩ := by simpa using hstep
    exact ⟨hnone, rfl, rfl⟩
  next => exact absurd hstep (by simp)

theorem step_exit {self : ℕ}
    (hstep : step before (.exit self) = some (after, event)) :
    event = none ∧ after = before.setThread self none := by
  simp only [step, Option.map_eq_some_iff, Prod.mk.injEq] at hstep
  obtain ⟨thread, -, rfl, rfl⟩ := hstep
  exact ⟨rfl, rfl⟩

theorem step_setAffinity {self : ℕ} {mask : CpuSet}
    (hstep : step before (.setAffinity self mask) = some (after, event)) :
    ∃ thread, before.threads self = some thread ∧ event = none ∧
      after = before.setThread self
        (some { thread with affinity := mask, own := mask }) := by
  simp only [step, Option.map_eq_some_iff, Prod.mk.injEq] at hstep
  obtain ⟨thread, hthread, rfl, rfl⟩ := hstep
  exact ⟨thread, hthread, rfl, rfl⟩

theorem step_construct {self this : ℕ} {producerCpu : Option ℕ}
    {calls : Syscalls}
    (hstep : step before (.construct self this producerCpu calls) =
      some (after, event)) :
    ∃ thread, before.threads self = some thread ∧
      before.pools this = none ∧ event = none ∧
      after = before.record this self
        (autoPinProducerOnce this self calls { producerCpu } thread) := by
  simp only [step] at hstep
  split at hstep
  next thread hthread hpool =>
    obtain ⟨rfl, rfl⟩ := by simpa using hstep
    exact ⟨thread, hthread, hpool, rfl, rfl⟩
  next => exact absurd hstep (by simp)

theorem step_dispatch {self this : ℕ} {calls : Syscalls}
    (hstep : step before (.dispatch self this calls) = some (after, event)) :
    ∃ thread pool, before.threads self = some thread ∧
      before.pools this = some pool ∧ event = none ∧
      after = before.record this self
        (ensureProducerPinnedForChunkZero this self calls pool thread) := by
  simp only [step] at hstep
  split at hstep
  next thread pool hthread hpool =>
    obtain ⟨rfl, rfl⟩ := by simpa using hstep
    exact ⟨thread, pool, hthread, hpool, rfl, rfl⟩
  next => exact absurd hstep (by simp)

theorem step_destroy {self this : ℕ}
    (hstep : step before (.destroy self this) = some (after, event)) :
    ∃ pool, before.pools this = some pool ∧
      (autoPinRestoreIfOurs this self pool before).2 = event ∧
      after = (autoPinRestoreIfOurs this self pool before).1.setPool this
        none := by
  simp only [step] at hstep
  split at hstep
  next thread pool hthread hpool =>
    obtain ⟨rfl, rfl⟩ := by simpa using hstep
    exact ⟨pool, hpool, rfl, rfl⟩
  next => exact absurd hstep (by simp)

/-- A step leaves the pools at other addresses alone. -/
theorem step_pools_of_ne {action : Action}
    (hstep : step before action = some (after, event))
    {this : ℕ} (hne : this ≠ action.pool) :
    after.pools this = before.pools this := by
  cases action with
  | start self mask => rw [(step_start hstep).2.2, setThread_pools]
  | exit self => rw [(step_exit hstep).2, setThread_pools]
  | setAffinity self mask =>
      obtain ⟨thread, -, -, rfl⟩ := step_setAffinity hstep
      rfl
  | construct self address producerCpu calls =>
      obtain ⟨thread, -, -, -, rfl⟩ := step_construct hstep
      exact Function.update_of_ne hne _ _
  | dispatch self address calls =>
      obtain ⟨thread, pool, -, -, -, rfl⟩ := step_dispatch hstep
      exact Function.update_of_ne hne _ _
  | destroy self address =>
      obtain ⟨pool, -, -, rfl⟩ := step_destroy hstep
      simp only [State.setPool, autoPinRestoreIfOurs_pools]
      exact Function.update_of_ne hne _ _

end Inversion

/-- Both halves fail: a thread keeps citor's mask after the last pool is gone,
and a stale mask is written over the one a thread set itself. -/
theorem histories_not_autoPinSound :
    (∃ trace state, Run history Undisturbed {} trace state ∧
      (∀ this, state.pools this = none) ∧
      ∃ thread, state.threads 1 = some thread ∧
        thread.affinity ≠ thread.own) ∧
    ∃ trace state, Run history Undisturbed {} trace state ∧
      ∃ event ∈ trace, event.saved ≠ event.own := by
  constructor
  · obtain ⟨trace, state, run, hcheck⟩ : ∃ trace state,
        Run history (fun state action =>
          Undisturbed state action ∧ action.pool = 0) {} trace state ∧
        ((state.pools 0).isNone && (state.threads 1).any fun thread =>
          decide (thread.affinity ≠ thread.own)) = true :=
      run_of_checked history
        (fun state action => undisturbed state action && action.pool == 0)
        (fun _ => True)
        (fun _ hcheck => by
          simp only [Bool.and_eq_true, beq_iff_eq] at hcheck
          exact ⟨undisturbed_of_check hcheck.1, hcheck.2⟩)
        (fun _ _ _ => trivial) {} trivial secondProducer
        _
        (by decide +kernel)
    have hothers : ∀ this, this ≠ 0 → state.pools this = none :=
      run.invariant (fun _ state => ∀ this, this ≠ 0 → state.pools this = none)
        (fun _ _ => rfl) fun hbefore hallowed hstep this hne => by
          rw [step_pools_of_ne hstep (hallowed.2 ▸ hne), hbefore this hne]
    simp only [Bool.and_eq_true, Option.isNone_iff_eq_none,
      Option.any_eq_true, decide_eq_true_eq] at hcheck
    refine ⟨trace, state, run.mono fun _ _ => And.left, fun this => ?_,
      hcheck.2⟩
    rcases eq_or_ne this 0 with rfl | hne
    · exact hcheck.1
    · exact hothers this hne
  · obtain ⟨trace, state, run, hcheck⟩ : ∃ trace state,
        Run history Undisturbed {} trace state ∧
        (trace.any fun event => decide (event.saved ≠ event.own)) = true :=
      run_of_checked history undisturbed (fun _ => True)
        (fun _ => undisturbed_of_check) (fun _ _ _ => trivial) {} trivial
        staleRecord
        _
        (by decide +kernel)
    exact ⟨trace, state, run, by simpa using hcheck⟩

/-! ## When the masks come back -/

/-- The pool and the thread of a step that pins. -/
def State.pinning (state : State) : Action → Option (Pool × Thread)
  | .construct self _ producerCpu calls =>
      (state.threads self).bind fun thread =>
        if Pool.pins { producerCpu } thread calls
          then some ({ producerCpu }, thread) else none
  | .dispatch self this calls =>
      (state.threads self).bind fun thread =>
        (state.pools this).bind fun pool =>
          if thread.autoPinTls.pool ≠ some this ∧ pool.pins thread calls
            then some (pool, thread) else none
  | _ => none

/-- A step that pins finds the record of the thread clear, or holding the mask
the thread has, and the mirror of the pool empty; and no thread exits while a
pool mirrors it. -/
structure PinsRecorded (state : State) (action : Action) : Prop where
  undisturbed : Undisturbed state action
  record : ∀ pool thread, state.pinning action = some (pool, thread) →
    thread.autoPinTls.restorePending = true →
    thread.autoPinTls.saved = thread.affinity
  mirror : ∀ pool thread, state.pinning action = some (pool, thread) →
    pool.autoPinActive = false
  exits : ∀ self, action = .exit self → ∀ this pool,
    state.pools this = some pool → pool.autoPinActive = true →
    pool.autoPinProducer ≠ self

/-- The pool is the one that restores the thread. -/
def State.Mirrors (state : State) (this self : ℕ) : Prop :=
  ∃ pool, state.pools this = some pool ∧ pool.autoPinActive = true ∧
    pool.autoPinProducer = self

/-- Every pinned thread is mirrored by one pool, with its own mask. -/
structure Mirrored (state : State) : Prop where
  unpinned : ∀ self thread, state.threads self = some thread →
    thread.pinned = false → thread.affinity = thread.own
  pinned : ∀ self thread, state.threads self = some thread →
    thread.pinned = true →
    thread.affinity.card ≤ 1 ∧ ∃ this, state.Mirrors this self
  saved : ∀ this pool, state.pools this = some pool →
    pool.autoPinActive = true →
    ∃ thread, state.threads pool.autoPinProducer = some thread ∧
      thread.pinned = true ∧ pool.autoPinSaved = thread.own
  unique : ∀ this other self, state.Mirrors this self →
    state.Mirrors other self → this = other

/-- What the pinner does to a thread that it does not pin. -/
structure Thread.SameMask (before after : Thread) : Prop where
  affinity : after.affinity = before.affinity
  own : after.own = before.own
  pinned : after.pinned = before.pinned

theorem autoPinProducerOnce_skip (this self : ℕ) {calls : Syscalls}
    {pool : Pool} {thread : Thread} (hpins : pool.pins thread calls = false) :
    (autoPinProducerOnce this self calls pool thread).1 = pool ∧
      thread.SameMask (autoPinProducerOnce this self calls pool thread).2 := by
  unfold autoPinProducerOnce
  split
  next => exact ⟨rfl, rfl, rfl, rfl⟩
  next cpuId hcpu =>
    split_ifs with hget hcard hset
    · exact ⟨rfl, rfl, rfl, rfl⟩
    · exact ⟨rfl, rfl, rfl, rfl⟩
    · exact ⟨rfl, rfl, rfl, rfl⟩
    all_goals
      exact absurd hpins (by
        simp [Pool.pins, hcpu, hget, hset, Nat.not_le.1 hcard])

theorem autoPinProducerOnce_pins (this self : ℕ) {calls : Syscalls}
    {pool : Pool} {thread : Thread} (hpins : pool.pins thread calls = true)
    (hrecord : thread.autoPinTls.restorePending = true →
      thread.autoPinTls.saved = thread.affinity) :
    ∃ cpuId, autoPinProducerOnce this self calls pool thread =
      ({ pool with
          autoPinActive := true
          autoPinProducer := self
          autoPinSaved := thread.affinity },
        { thread with
          affinity := {cpuId}
          autoPinTls := {
            saved := thread.affinity
            pool := some this
            restorePending := true }
          pinned := true }) := by
  simp only [Pool.pins, Bool.and_eq_true, decide_eq_true_eq,
    Option.isSome_iff_exists] at hpins
  obtain ⟨⟨⟨⟨cpuId, hcpu⟩, hget⟩, hcard⟩, hset⟩ := hpins
  have hsaved : (if thread.autoPinTls.restorePending
      then thread.autoPinTls.saved else thread.affinity) =
      thread.affinity := by
    split
    next hpending => exact hrecord hpending
    next => rfl
  refine ⟨cpuId, ?_⟩
  simp [autoPinProducerOnce, hcpu, hget, hset, hsaved, Nat.not_le.2 hcard]

/-- The states differ in tags and records alone. -/
structure State.SamePins (before after : State) : Prop where
  threads : ∀ self,
    Option.Rel Thread.SameMask (before.threads self) (after.threads self)
  pools : ∀ this pool, pool.autoPinActive = true →
    (after.pools this = some pool ↔ before.pools this = some pool)

theorem State.SamePins.mirrors {before after : State}
    (hsame : before.SamePins after) (this self : ℕ) :
    after.Mirrors this self ↔ before.Mirrors this self := by
  constructor
  · rintro ⟨pool, hpool, hactive, hself⟩
    exact ⟨pool, (hsame.pools this pool hactive).1 hpool, hactive, hself⟩
  · rintro ⟨pool, hpool, hactive, hself⟩
    exact ⟨pool, (hsame.pools this pool hactive).2 hpool, hactive, hself⟩

theorem State.SamePins.thread {before after : State}
    (hsame : before.SamePins after) {self : ℕ} {thread : Thread}
    (hthread : after.threads self = some thread) :
    ∃ earlier, before.threads self = some earlier ∧
      earlier.SameMask thread := by
  have hrel := hsame.threads self
  rw [hthread] at hrel
  cases hearlier : before.threads self with
  | none => simp [hearlier] at hrel
  | some earlier => exact ⟨earlier, rfl, by simpa [hearlier] using hrel⟩

theorem State.SamePins.later {before after : State}
    (hsame : before.SamePins after) {self : ℕ} {thread : Thread}
    (hthread : before.threads self = some thread) :
    ∃ later, after.threads self = some later ∧ thread.SameMask later := by
  have hrel := hsame.threads self
  rw [hthread] at hrel
  cases hlater : after.threads self with
  | none => simp [hlater] at hrel
  | some later => exact ⟨later, rfl, by simpa [hlater] using hrel⟩

theorem Mirrored.of_samePins {before after : State}
    (hinv : Mirrored before) (hsame : before.SamePins after) :
    Mirrored after where
  unpinned := by
    intro self thread hthread hpinned
    obtain ⟨earlier, hearlier, hmask⟩ := hsame.thread hthread
    rw [hmask.affinity, hmask.own]
    exact hinv.unpinned self earlier hearlier (hmask.pinned ▸ hpinned)
  pinned := by
    intro self thread hthread hpinned
    obtain ⟨earlier, hearlier, hmask⟩ := hsame.thread hthread
    obtain ⟨hcard, this, hmirrors⟩ :=
      hinv.pinned self earlier hearlier (hmask.pinned ▸ hpinned)
    exact ⟨hmask.affinity ▸ hcard, this, (hsame.mirrors this self).2 hmirrors⟩
  saved := by
    intro this pool hpool hactive
    obtain ⟨thread, hthread, hpinned, hsaved⟩ :=
      hinv.saved this pool ((hsame.pools this pool hactive).1 hpool) hactive
    obtain ⟨later, hlater, hmask⟩ := hsame.later hthread
    exact ⟨later, hlater, hmask.pinned.trans hpinned,
      hsaved.trans hmask.own.symm⟩
  unique := by
    intro this other self hthis hother
    exact hinv.unique this other self ((hsame.mirrors this self).1 hthis)
      ((hsame.mirrors other self).1 hother)

theorem Thread.SameMask.refl (thread : Thread) : thread.SameMask thread :=
  ⟨rfl, rfl, rfl⟩

theorem samePins_record {state : State} {this self : ℕ} {thread : Thread}
    {after : Pool × Thread} (hthread : state.threads self = some thread)
    (hmask : thread.SameMask after.2)
    (hpool : state.pools this = some after.1 ∨
      state.pools this = none ∧ after.1.autoPinActive = false) :
    state.SamePins (state.record this self after) where
  threads := by
    intro other
    by_cases hother : other = self
    · subst hother
      simpa [State.record, State.setThread, hthread] using hmask
    · cases hthreads : state.threads other with
      | none => simp [State.record, State.setThread, hother, hthreads]
      | some => simp [State.record, State.setThread, hother, hthreads,
          Thread.SameMask.refl]
  pools := by
    intro other pool hactive
    by_cases hother : other = this
    · subst hother
      rcases hpool with hpool | ⟨hnone, hinactive⟩
      · simp [State.record, State.setPool, hpool]
      · simp only [State.record, setThread_pools, State.setPool,
          Function.update_self, Option.some.injEq, hnone, reduceCtorEq,
          iff_false]
        rintro rfl
        simp [hinactive] at hactive
    · simp [State.record, State.setPool, hother]

theorem mirrors_record_self {state : State} {this self id : ℕ}
    {after : Pool × Thread} :
    (state.record this self after).Mirrors this id ↔
      after.1.autoPinActive = true ∧ after.1.autoPinProducer = id := by
  simp [State.Mirrors, State.record, State.setPool]

theorem mirrors_record_of_ne {state : State} {this other self id : ℕ}
    {after : Pool × Thread} (hother : other ≠ this) :
    (state.record this self after).Mirrors other id ↔
      state.Mirrors other id := by
  simp [State.Mirrors, State.record, State.setPool, hother]

/-- A pin of a thread with its own mask, by a pool with an empty mirror. -/
theorem Mirrored.pin {state : State} (hinv : Mirrored state)
    {this self cpuId : ℕ} {thread : Thread} {after : Pool × Thread}
    (hthread : state.threads self = some thread)
    (hcard : 1 < thread.affinity.card)
    (hfree : ∀ pool, state.pools this = some pool →
      pool.autoPinActive = false)
    (hactive : after.1.autoPinActive = true)
    (hproducer : after.1.autoPinProducer = self)
    (hsaved : after.1.autoPinSaved = thread.affinity)
    (haffinity : after.2.affinity = {cpuId})
    (hown : after.2.own = thread.own) (hpinned : after.2.pinned = true) :
    Mirrored (state.record this self after) := by
  have hunpinned : thread.pinned = false := by
    cases hbefore : thread.pinned with
    | false => rfl
    | true =>
        have := (hinv.pinned self thread hthread hbefore).1
        omega
  have hnone : ∀ other, ¬ state.Mirrors other self := by
    rintro other ⟨pool, hpool, hother, rfl⟩
    obtain ⟨mirrored, hmirrored, htrue, -⟩ :=
      hinv.saved other pool hpool hother
    simp_all
  have hfreeMirrors : ∀ id, ¬ state.Mirrors this id := by
    rintro id ⟨pool, hpool, htrue, -⟩
    simp [hfree pool hpool] at htrue
  have hself : (state.record this self after).Mirrors this self :=
    mirrors_record_self.2 ⟨hactive, hproducer⟩
  have hthreads : (state.record this self after).threads =
      Function.update state.threads self (some after.2) := rfl
  constructor
  · intro id other hother hfalse
    by_cases hid : id = self
    · subst hid
      obtain rfl : after.2 = other := by simpa [hthreads] using hother
      simp [hpinned] at hfalse
    · exact hinv.unpinned id other (by simpa [hthreads, hid] using hother) hfalse
  · intro id other hother htrue
    by_cases hid : id = self
    · subst hid
      obtain rfl : after.2 = other := by simpa [hthreads] using hother
      exact ⟨by simp [haffinity], this, hself⟩
    · obtain ⟨hcards, address, hmirrors⟩ := hinv.pinned id other
        (by simpa [hthreads, hid] using hother) htrue
      have hne : address ≠ this := by
        rintro rfl
        exact hfreeMirrors id hmirrors
      exact ⟨hcards, address, (mirrors_record_of_ne hne).2 hmirrors⟩
  · intro address pool hpool hmirror
    by_cases haddress : address = this
    · subst haddress
      obtain rfl : after.1 = pool := by
        simpa [State.record, State.setPool] using hpool
      refine ⟨after.2, by simp [hthreads, hproducer], hpinned, ?_⟩
      rw [hsaved, hown]
      exact hinv.unpinned self thread hthread hunpinned
    · have hbefore : state.pools address = some pool := by
        simpa [State.record, State.setPool, haddress] using hpool
      have hne : pool.autoPinProducer ≠ self := by
        rintro hproducer
        exact hnone address ⟨pool, hbefore, hmirror, hproducer⟩
      obtain ⟨other, hother, hrest⟩ := hinv.saved address pool hbefore hmirror
      exact ⟨other, by simpa [hthreads, hne] using hother, hrest⟩
  · intro first second id hfirst hsecond
    by_cases hid : id = self
    · subst hid
      have honly : ∀ address,
          (state.record this id after).Mirrors address id → address = this := by
        intro address hmirrors
        by_contra haddress
        exact hnone address ((mirrors_record_of_ne haddress).1 hmirrors)
      rw [honly first hfirst, honly second hsecond]
    · have helse : ∀ address, (state.record this self after).Mirrors address id →
          state.Mirrors address id := by
        intro address hmirrors
        by_cases haddress : address = this
        · subst haddress
          exact absurd ((mirrors_record_self.1 hmirrors).2.symm.trans hproducer)
            hid
        · exact (mirrors_record_of_ne haddress).1 hmirrors
      exact hinv.unique first second id (helse first hfirst)
        (helse second hsecond)

/-- A thread that no pool mirrors may start, exit or change its mask. -/
theorem Mirrored.setThread {state : State} (hinv : Mirrored state)
    {self : ℕ} {after : Option Thread}
    (hfree : ∀ this, ¬ state.Mirrors this self)
    (hown : ∀ thread, after = some thread →
      thread.affinity = thread.own ∧ thread.pinned = false) :
    Mirrored (state.setThread self after) := by
  have hthreads : (state.setThread self after).threads =
      Function.update state.threads self after := rfl
  constructor
  · intro id thread hthread hfalse
    by_cases hid : id = self
    · subst hid
      exact (hown thread (by simpa [hthreads] using hthread)).1
    · exact hinv.unpinned id thread (by simpa [hthreads, hid] using hthread)
        hfalse
  · intro id thread hthread htrue
    by_cases hid : id = self
    · subst hid
      have hfalse := (hown thread (by simpa [hthreads] using hthread)).2
      simp [hfalse] at htrue
    · exact hinv.pinned id thread (by simpa [hthreads, hid] using hthread) htrue
  · intro this pool hpool hactive
    have hne : pool.autoPinProducer ≠ self := by
      rintro hself
      exact hfree this ⟨pool, hpool, hactive, hself⟩
    obtain ⟨thread, hthread, hrest⟩ := hinv.saved this pool hpool hactive
    exact ⟨thread, by simpa [hthreads, hne] using hthread, hrest⟩
  · exact hinv.unique

/-- The mirrored producer gets its mask back as its pool goes. -/
theorem Mirrored.restore {state : State} (hinv : Mirrored state)
    {this : ℕ} {pool : Pool} {producer : Thread}
    (hpool : state.pools this = some pool)
    (hactive : pool.autoPinActive = true)
    (hsaved : pool.autoPinSaved = producer.own) :
    Mirrored ((state.setThread pool.autoPinProducer
      (some (producer.restore pool.autoPinSaved))).setPool this none) := by
  have hthis : state.Mirrors this pool.autoPinProducer :=
    ⟨pool, hpool, hactive, rfl⟩
  have hthreads : (state.setThread pool.autoPinProducer
      (some (producer.restore pool.autoPinSaved))).threads =
      Function.update state.threads pool.autoPinProducer
        (some (producer.restore pool.autoPinSaved)) := rfl
  have hpools : ((state.setThread pool.autoPinProducer
      (some (producer.restore pool.autoPinSaved))).setPool this none).pools =
      Function.update state.pools this none := rfl
  have hkept : ∀ address other, ((state.setThread pool.autoPinProducer
      (some (producer.restore pool.autoPinSaved))).setPool this none).pools
        address = some other →
      address ≠ this ∧ state.pools address = some other := by
    intro address other hother
    by_cases haddress : address = this
    · simp [hpools, haddress] at hother
    · exact ⟨haddress, by simpa [hpools, haddress] using hother⟩
  constructor
  · intro id thread hthread hfalse
    by_cases hid : id = pool.autoPinProducer
    · obtain rfl : producer.restore pool.autoPinSaved = thread := by
        simpa [hthreads, hid] using hthread
      exact hsaved
    · exact hinv.unpinned id thread (by simpa [hthreads, hid] using hthread)
        hfalse
  · intro id thread hthread htrue
    by_cases hid : id = pool.autoPinProducer
    · obtain rfl : producer.restore pool.autoPinSaved = thread := by
        simpa [hthreads, hid] using hthread
      simp [Thread.restore] at htrue
    · obtain ⟨hcard, address, other, hother, hmirror, rfl⟩ :=
        hinv.pinned id thread (by simpa [hthreads, hid] using hthread) htrue
      have haddress : address ≠ this := by
        rintro rfl
        simp_all
      exact ⟨hcard, address, other, by simpa [hpools, haddress] using hother,
        hmirror, rfl⟩
  · intro address other hother hmirror
    obtain ⟨haddress, hbefore⟩ := hkept address other hother
    have hne : other.autoPinProducer ≠ pool.autoPinProducer := by
      intro hsame
      exact haddress (hinv.unique address this pool.autoPinProducer
        ⟨other, hbefore, hmirror, hsame⟩ hthis)
    obtain ⟨thread, hthread, hrest⟩ := hinv.saved address other hbefore hmirror
    exact ⟨thread, by simpa [hthreads, hne] using hthread, hrest⟩
  · rintro first second id ⟨left, hleft, hfirst⟩ ⟨right, hright, hsecond⟩
    exact hinv.unique first second id
      ⟨left, (hkept first left hleft).2, hfirst⟩
      ⟨right, (hkept second right hright).2, hsecond⟩

theorem sameMask_clearTag (thread : Thread) (this : ℕ) :
    thread.SameMask (thread.clearTag this) := by
  unfold Thread.clearTag
  split <;> exact ⟨rfl, rfl, rfl⟩

theorem samePins_clearTag (state : State) (this self : ℕ) :
    state.SamePins (state.setThread self
      ((state.threads self).map (·.clearTag this))) where
  threads := by
    intro other
    by_cases hother : other = self
    · subst hother
      cases hthread : state.threads other <;>
        simp [State.setThread, sameMask_clearTag]
    · cases hthread : state.threads other <;>
        simp [State.setThread, hother, hthread, Thread.SameMask.refl]
  pools _ _ _ := Iff.rfl

/-- A pool that mirrors no thread just goes. -/
theorem samePins_setPool {state : State} {this : ℕ} {pool : Pool}
    (hpool : state.pools this = some pool)
    (hinactive : pool.autoPinActive = false) :
    state.SamePins (state.setPool this none) where
  threads other := by
    cases hthread : state.threads other <;>
      simp [hthread, Thread.SameMask.refl]
  pools := by
    intro other mirror hactive
    by_cases hother : other = this
    · subst hother
      simp only [State.setPool, Function.update_self, reduceCtorEq, hpool,
        Option.some.injEq, false_iff]
      rintro rfl
      simp [hinactive] at hactive
    · simp [State.setPool, hother]

/-- The destructor restores the thread it mirrors, and writes back its own
mask. -/
theorem Mirrored.destroy {state : State} (hinv : Mirrored state)
    {this self : ℕ} {pool : Pool} (hpool : state.pools this = some pool) :
    Mirrored ((autoPinRestoreIfOurs this self pool state).1.setPool this
        none) ∧
      ∀ event, (autoPinRestoreIfOurs this self pool state).2 = some event →
        event.saved = event.own := by
  have hclear : ∀ after : State, Mirrored (after.setPool this none) →
      Mirrored ((after.setThread self
        ((after.threads self).map (·.clearTag this))).setPool this none) :=
    fun after hafter =>
      hafter.of_samePins (samePins_clearTag (after.setPool this none) this self)
  cases hactive : pool.autoPinActive with
  | false =>
      have hrestore : state.restore pool = (state, none) := by
        simp [State.restore, hactive]
      simp only [autoPinRestoreIfOurs, hrestore]
      exact ⟨hclear state (hinv.of_samePins (samePins_setPool hpool hactive)),
        nofun⟩
  | true =>
      obtain ⟨producer, hproducer, -, hsaved⟩ := hinv.saved this pool hpool hactive
      have hrestore : state.restore pool =
          (state.setThread pool.autoPinProducer
            (some (producer.restore pool.autoPinSaved)),
            some ⟨pool.autoPinProducer, pool.autoPinSaved, producer.own⟩) := by
        simp [State.restore, hactive, hproducer]
      simp only [autoPinRestoreIfOurs, hrestore, Option.some.injEq]
      refine ⟨hclear _ (hinv.restore hpool hactive hsaved), ?_⟩
      rintro event rfl
      exact hsaved

/-- A call that reaches the pinner keeps the invariant. -/
theorem Mirrored.autoPin {state : State} (hinv : Mirrored state)
    {this self : ℕ} {calls : Syscalls} {pool : Pool} {thread : Thread}
    (hthread : state.threads self = some thread)
    (hpool : state.pools this = some pool ∨
      state.pools this = none ∧ pool.autoPinActive = false)
    (hrecord : pool.pins thread calls = true →
      thread.autoPinTls.restorePending = true →
      thread.autoPinTls.saved = thread.affinity)
    (hmirror : pool.pins thread calls = true → pool.autoPinActive = false) :
    Mirrored (state.record this self
      (autoPinProducerOnce this self calls pool thread)) := by
  cases hpins : pool.pins thread calls with
  | false =>
      obtain ⟨hsame, hmask⟩ := autoPinProducerOnce_skip this self hpins
      refine hinv.of_samePins (samePins_record hthread hmask ?_)
      rw [hsame]
      exact hpool
  | true =>
      obtain ⟨cpuId, hafter⟩ :=
        autoPinProducerOnce_pins this self hpins (hrecord hpins)
      have hcard : 1 < thread.affinity.card := by
        simp only [Pool.pins, Bool.and_eq_true, decide_eq_true_eq] at hpins
        exact hpins.1.2
      have hfree : ∀ other, state.pools this = some other →
          other.autoPinActive = false := by
        intro other hother
        rcases hpool with hpool | ⟨hnone, -⟩
        · obtain rfl : pool = other := by simpa [hpool] using hother
          exact hmirror hpins
        · simp [hnone] at hother
      rw [hafter]
      exact hinv.pin hthread hcard hfree rfl rfl rfl rfl rfl rfl

/-- Every recorded step keeps the invariant and writes no stale mask. -/
theorem Mirrored.step {before after : State} {action : Action}
    {event : Option Event} (hinv : Mirrored before)
    (hallowed : PinsRecorded before action)
    (hstep : step before action = some (after, event)) :
    Mirrored after ∧ ∀ emitted, event = some emitted →
      emitted.saved = emitted.own := by
  cases action with
  | start self mask =>
      obtain ⟨hnone, rfl, rfl⟩ := step_start hstep
      refine ⟨hinv.setThread ?_ (by rintro thread ⟨⟩; exact ⟨rfl, rfl⟩), nofun⟩
      rintro this ⟨pool, hpool, hactive, rfl⟩
      obtain ⟨thread, hthread, -⟩ := hinv.saved this pool hpool hactive
      simp [hnone] at hthread
  | exit self =>
      obtain ⟨rfl, rfl⟩ := step_exit hstep
      refine ⟨hinv.setThread ?_ nofun, nofun⟩
      rintro this ⟨pool, hpool, hactive, hself⟩
      exact hallowed.exits self rfl this pool hpool hactive hself
  | setAffinity self mask =>
      obtain ⟨thread, hthread, rfl, rfl⟩ := step_setAffinity hstep
      have hfalse : thread.pinned = false := hallowed.undisturbed thread hthread
      refine ⟨hinv.setThread ?_
        (by rintro thread ⟨⟩; exact ⟨rfl, hfalse⟩), nofun⟩
      rintro this ⟨pool, hpool, hactive, rfl⟩
      obtain ⟨mirrored, hmirrored, htrue, -⟩ := hinv.saved this pool hpool hactive
      simp_all
  | construct self this producerCpu calls =>
      obtain ⟨thread, hthread, hpool, rfl, rfl⟩ := step_construct hstep
      have hpinning : Pool.pins { producerCpu } thread calls = true →
          before.pinning (.construct self this producerCpu calls) =
            some ({ producerCpu }, thread) := by
        intro hpins
        simp [State.pinning, hthread, hpins]
      exact ⟨hinv.autoPin hthread (.inr ⟨hpool, rfl⟩)
        (fun hpins => hallowed.record _ thread (hpinning hpins))
        (fun hpins => hallowed.mirror _ thread (hpinning hpins)), nofun⟩
  | dispatch self this calls =>
      obtain ⟨thread, pool, hthread, hpool, rfl, rfl⟩ := step_dispatch hstep
      refine ⟨?_, nofun⟩
      unfold ensureProducerPinnedForChunkZero
      split
      next htag =>
        have hpinning : pool.pins thread calls = true →
            before.pinning (.dispatch self this calls) =
              some (pool, thread) := by
          intro hpins
          simp [State.pinning, hthread, hpool, htag, hpins]
        exact hinv.autoPin hthread (.inl hpool)
          (fun hpins => hallowed.record pool thread (hpinning hpins))
          (fun hpins => hallowed.mirror pool thread (hpinning hpins))
      next =>
        exact hinv.of_samePins
          (samePins_record hthread (.refl thread) (.inl hpool))
  | destroy self this =>
      obtain ⟨pool, hpool, rfl, rfl⟩ := step_destroy hstep
      exact hinv.destroy hpool

theorem mirrored_start : Mirrored {} where
  unpinned := nofun
  pinned := nofun
  saved := nofun
  unique := by
    rintro this other self ⟨pool, hpool, -⟩
    simp at hpool

/-- In every history of recorded pins the masks come back, and no stale mask
is written. -/
theorem autoPinSound_of_run {trace : List Event} {state : State}
    (run : Run history PinsRecorded {} trace state) :
    AutoPinSound trace state := by
  obtain ⟨hinv, hwritten⟩ : Mirrored state ∧
      ∀ event ∈ trace, event.saved = event.own := by
    refine run.invariant (fun trace state => Mirrored state ∧
      ∀ event ∈ trace, event.saved = event.own) ?_ ?_
    · exact ⟨mirrored_start, nofun⟩
    · intro trace before action after event hbefore hallowed hstep
      obtain ⟨hafter, hemitted⟩ := hbefore.1.step hallowed hstep
      refine ⟨hafter, fun emitted hmem => ?_⟩
      rcases List.mem_append.1 hmem with hmem | hmem
      · exact hbefore.2 emitted hmem
      · exact hemitted emitted (by simpa using hmem)
  refine ⟨fun hdestroyed self thread hthread => ?_, hwritten⟩
  cases hpinned : thread.pinned with
  | false => exact hinv.unpinned self thread hthread hpinned
  | true =>
      obtain ⟨-, this, pool, hpool, -⟩ := hinv.pinned self thread hthread hpinned
      simp [hdestroyed this] at hpool

/-- A pool inside the life of another one, then a mask of the thread's own and
a third pool at a used address. -/
def nestedPools : List Action :=
  [.start 1 {0, 1}, .construct 1 0 (some 0) {}, .dispatch 1 0 {},
    .construct 1 1 (some 1) {}, .dispatch 1 1 {}, .destroy 1 1,
    .dispatch 1 0 {}, .destroy 1 0, .setAffinity 1 {0, 1, 2},
    .construct 1 0 (some 0) {}, .destroy 1 0]

/-- `PinsRecorded` as a test, for histories in which no thread exits. -/
def pinsRecorded (state : State) (action : Action) : Bool :=
  undisturbed state action &&
    (state.pinning action).all (fun pin =>
      (!pin.2.autoPinTls.restorePending ||
        decide (pin.2.autoPinTls.saved = pin.2.affinity)) &&
      !pin.1.autoPinActive) &&
    match action with
    | .exit _ => false
    | _ => true

theorem pinsRecorded_of_check {state : State} {action : Action}
    (hcheck : pinsRecorded state action = true) :
    PinsRecorded state action := by
  simp only [pinsRecorded, Bool.and_eq_true] at hcheck
  obtain ⟨⟨hundisturbed, hpinning⟩, hexit⟩ := hcheck
  refine ⟨undisturbed_of_check hundisturbed, ?_, ?_, ?_⟩
  · intro pool thread hpin hpending
    simp only [hpin, Option.all_some, hpending, Bool.not_true, Bool.false_or,
      Bool.and_eq_true, decide_eq_true_eq] at hpinning
    exact hpinning.1
  · intro pool thread hpin
    simp only [hpin, Option.all_some, Bool.and_eq_true,
      Bool.not_eq_true'] at hpinning
    exact hpinning.2
  · rintro self rfl
    simp at hexit

/-- Three pools of one thread, each restored in turn. -/
theorem autoPinSound_nestedPools :
    ∃ trace state, Run history PinsRecorded {} trace state ∧
      AutoPinSound trace state ∧ trace.length = 2 := by
  obtain ⟨trace, state, run, hlength⟩ : ∃ trace state,
      Run history PinsRecorded {} trace state ∧
      decide (trace.length = 2) = true :=
    run_of_checked history pinsRecorded (fun _ => True)
      (fun _ => pinsRecorded_of_check) (fun _ _ _ => trivial) {} trivial
      nestedPools _ (by decide +kernel)
  exact ⟨trace, state, run, autoPinSound_of_run run,
    of_decide_eq_true hlength⟩

end Citor.AutoPin
