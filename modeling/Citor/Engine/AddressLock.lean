import Citor.Core.Interleaving

/-!
# The dispatch gate on a lock word

The gate as it is built on `WaitOnAddress` and `WakeByAddressSingle`: a word
with a held bit and a has-waiter bit.  Unlocking clears both bits; whoever
acquires after a wait sets both.  A program counter stands in front of the next
access to the word or the next call of the system.
-/

namespace Citor.AddressLock

open Citor.Interleaving

def kHeldBit : UInt32 := 1

def kHasWaiterBit : UInt32 := 2

def kSpinIters : ℕ := 64

/-- Where a thread stands. -/
inductive Pc
  | idle
  /-- `dispatchGateTryLock`, called on its own. -/
  | tryLock
  /-- The compare-exchange at the entry of `dispatchGateLock`. -/
  | fastPath
  | spinLoad (i : ℕ)
  | spinTryLock (i : ℕ)
  /-- The slow path, about to load the word. -/
  | load
  /-- About to take the free word with both bits. -/
  | acquire
  /-- About to set the has-waiter bit in the word it has read. -/
  | setWaiter (cur : UInt32)
  /-- About to call `WaitOnAddress` with the word it compares. -/
  | wait (cur : UInt32)
  /-- Asleep in `WaitOnAddress`. -/
  | parked
  | holding
  /-- In `dispatchGateUnlock`, about to call `WakeByAddressSingle`. -/
  | wake
  deriving DecidableEq, Repr

structure State where
  dispatchMutex : UInt32
  pc : ℕ → Pc

inductive Action
  | callTryLock (thread : ℕ)
  | callLock (thread : ℕ)
  /-- The next access to the word or call of `WaitOnAddress`. -/
  | advance (thread : ℕ)
  /-- A weak compare-exchange that fails although it could succeed. -/
  | failWeak (thread : ℕ)
  /-- The exchange of `dispatchGateUnlock`. -/
  | unlock (thread : ℕ)
  /-- `WakeByAddressSingle`, with the threads it releases. -/
  | wakeByAddressSingle (thread : ℕ) (released : List ℕ)
  /-- `WaitOnAddress` may return without a wake. -/
  | returnEarly (thread : ℕ)
  deriving DecidableEq, Repr

section Step

variable (state : State) (thread : ℕ)

def State.setPc (pc : Pc) : State :=
  { state with pc := Function.update state.pc thread pc }

/-- A compare-exchange of the word. -/
def State.compareExchange (expected desired : UInt32) (success failure : Pc) :
    State :=
  if state.dispatchMutex = expected then
    { state with dispatchMutex := desired }.setPc thread success
  else state.setPc thread failure

/-- Behind iteration `i` of the bounded spin. -/
def afterSpin (i : ℕ) : Pc :=
  if i + 1 < kSpinIters then .spinLoad (i + 1) else .load

/-- One step of `dispatchGateTryLock` or `dispatchGateLock`. -/
def stepLock : Option State :=
  match state.pc thread with
  | .tryLock => some (state.compareExchange thread 0 kHeldBit .holding .idle)
  | .fastPath =>
      some (state.compareExchange thread 0 kHeldBit .holding (.spinLoad 0))
  | .spinLoad i =>
      if state.dispatchMutex = 0 then
        some (state.setPc thread (.spinTryLock i))
      else some (state.setPc thread (afterSpin i))
  | .spinTryLock i =>
      some (state.compareExchange thread 0 kHeldBit .holding (afterSpin i))
  | .load =>
      let cur := state.dispatchMutex
      if cur = 0 then some (state.setPc thread .acquire)
      else if cur &&& kHasWaiterBit = 0 then
        some (state.setPc thread (.setWaiter cur))
      else some (state.setPc thread (.wait cur))
  | .acquire =>
      some (state.compareExchange thread 0 (kHeldBit ||| kHasWaiterBit)
        .holding .load)
  | .setWaiter cur =>
      some (state.compareExchange thread cur (cur ||| kHasWaiterBit)
        (.wait (cur ||| kHasWaiterBit)) .load)
  | .wait cur =>
      if state.dispatchMutex = cur then some (state.setPc thread .parked)
      else some (state.setPc thread .load)
  | .idle | .parked | .holding | .wake => none

/-- The released threads go on in the slow path. -/
def State.release (released : List ℕ) : State :=
  { state with
    pc := fun other => if other ∈ released then .load else state.pc other }

end Step

/-- The lock under any number of threads; it emits nothing. -/
def lock : Machine State Action Empty where
  step state
    | .callTryLock thread =>
        if state.pc thread = .idle then
          some (state.setPc thread .tryLock, none)
        else none
    | .callLock thread =>
        if state.pc thread = .idle then
          some (state.setPc thread .fastPath, none)
        else none
    | .advance thread => (stepLock state thread).map fun after => (after, none)
    | .failWeak thread =>
        match state.pc thread with
        | .acquire | .setWaiter _ => some (state.setPc thread .load, none)
        | _ => none
    | .unlock thread =>
        if state.pc thread = .holding then
          let prev := state.dispatchMutex
          some ({ state with dispatchMutex := 0 }.setPc thread
            (if prev &&& kHasWaiterBit ≠ 0 then .wake else .idle), none)
        else none
    | .wakeByAddressSingle thread released =>
        if state.pc thread = .wake ∧
            (∀ other ∈ released, state.pc other = .parked) then
          some ((state.release released).setPc thread .idle, none)
        else none
    | .returnEarly thread =>
        if state.pc thread = .parked then
          some (state.setPc thread .load, none)
        else none

/-- `WakeByAddressSingle` releases at least one waiter if there is any. -/
def Wakes (state : State) : Action → Prop
  | .wakeByAddressSingle _ released =>
      (∃ thread, state.pc thread = .parked) → released ≠ []
  | _ => True

def start : State where
  dispatchMutex := 0
  pc := fun _ => .idle

/-! ## The invariant -/

/-- Running in the slow path. -/
def Pc.inSlowPath : Pc → Prop
  | .load | .acquire | .setWaiter _ | .wait _ => True
  | _ => False

/-- What a thread in the slow path remembers of the word. -/
def Pc.Remembers : Pc → Prop
  | .setWaiter cur => cur = kHeldBit
  | .wait cur => cur = kHeldBit ||| kHasWaiterBit
  | _ => True

/-- Somebody will see to the parked threads: the holder, whose word has the
bit, a thread about to wake or a thread in the slow path. -/
def Attended (state : State) : Prop :=
  state.dispatchMutex = kHeldBit ||| kHasWaiterBit ∨
    (∃ thread, state.pc thread = .wake) ∨
    ∃ thread, (state.pc thread).inSlowPath

structure Inv (state : State) : Prop where
  word : state.dispatchMutex = 0 ∨ state.dispatchMutex = kHeldBit ∨
    state.dispatchMutex = kHeldBit ||| kHasWaiterBit
  held : ∀ thread, state.pc thread = .holding → state.dispatchMutex ≠ 0
  unique : ∀ left right, state.pc left = .holding →
    state.pc right = .holding → left = right
  remembers : ∀ thread, (state.pc thread).Remembers
  attended : (∃ thread, state.pc thread = .parked) → Attended state

section Steps

variable {before after : State} {thread : ℕ} {pc : Pc}

/-- Program counters that keep the parked threads attended. -/
def Pc.attends (pc : Pc) : Prop :=
  pc = .wake ∨ pc.inSlowPath

theorem attended_iff {state : State} :
    Attended state ↔ state.dispatchMutex = kHeldBit ||| kHasWaiterBit ∨
      ∃ thread, (state.pc thread).attends := by
  unfold Attended Pc.attends
  rw [← exists_or]

/-- A step of `thread` leaves the parked threads attended if the thread stays
or the word has the bit. -/
theorem attended_step
    (hpc : after.pc = Function.update before.pc thread pc)
    (hword : before.dispatchMutex = kHeldBit ||| kHasWaiterBit →
      after.dispatchMutex = kHeldBit ||| kHasWaiterBit ∨ pc.attends)
    (hstays : (before.pc thread).attends →
      after.dispatchMutex = kHeldBit ||| kHasWaiterBit ∨ pc.attends)
    (hbefore : Attended before) : Attended after := by
  have hself : pc.attends → ∃ other, (after.pc other).attends := by
    intro hattends
    exact ⟨thread, by rwa [hpc, Function.update_self]⟩
  rw [attended_iff] at hbefore ⊢
  rcases hbefore with hbit | ⟨other, hattends⟩
  · exact (hword hbit).imp_right hself
  · by_cases hmine : other = thread
    · exact (hstays (hmine ▸ hattends)).imp_right hself
    · exact .inr ⟨other, by rwa [hpc, Function.update_of_ne hmine]⟩

theorem parked_before (hpc : after.pc = Function.update before.pc thread pc)
    (hnot : pc ≠ .parked) (hparked : ∃ other, after.pc other = .parked) :
    ∃ other, before.pc other = .parked := by
  obtain ⟨other, hother⟩ := hparked
  refine ⟨other, ?_⟩
  by_cases hmine : other = thread
  · rw [hpc, hmine, Function.update_self] at hother
    exact absurd hother hnot
  · rwa [hpc, Function.update_of_ne hmine] at hother

theorem remembers_update {places : ℕ → Pc}
    (hall : ∀ other, (places other).Remembers) (hremembers : pc.Remembers)
    (other : ℕ) : (Function.update places thread pc other).Remembers := by
  by_cases hmine : other = thread
  · rwa [hmine, Function.update_self]
  · rw [Function.update_of_ne hmine]
    exact hall other

theorem holding_before {places : ℕ → Pc} (hpc : pc ≠ .holding) {other : ℕ}
    (hother : Function.update places thread pc other = .holding) :
    places other = .holding := by
  by_cases hmine : other = thread
  · rw [hmine, Function.update_self] at hother
    exact absurd hother hpc
  · rwa [Function.update_of_ne hmine] at hother

/-- A step that neither takes nor releases the gate. -/
theorem Inv.setPc (hinv : Inv before) (hpc : pc ≠ .holding)
    (hremembers : pc.Remembers)
    (hparks : pc = .parked →
      before.dispatchMutex = kHeldBit ||| kHasWaiterBit)
    (hstays : (before.pc thread).attends →
      before.dispatchMutex = kHeldBit ||| kHasWaiterBit ∨ pc.attends) :
    Inv (before.setPc thread pc) where
  word := hinv.word
  held other hother := hinv.held other (holding_before hpc hother)
  unique left right hleft hright :=
    hinv.unique left right (holding_before hpc hleft)
      (holding_before hpc hright)
  remembers := remembers_update hinv.remembers hremembers
  attended := by
    intro hparked
    by_cases hmine : pc = .parked
    · exact .inl (hparks hmine)
    · exact attended_step rfl .inl hstays
        (hinv.attended (parked_before rfl hmine hparked))

/-- Taking the free word. -/
theorem Inv.take (hinv : Inv before) (hfree : before.dispatchMutex = 0)
    {desired : UInt32} (hdesired : desired = kHeldBit ∧
        ¬ (before.pc thread).attends ∨
      desired = kHeldBit ||| kHasWaiterBit) :
    Inv ({ before with dispatchMutex := desired }.setPc thread .holding) := by
  have hplaces : ({ before with dispatchMutex := desired }.setPc thread
      .holding).pc = Function.update before.pc thread .holding := rfl
  have hmine : ∀ other, Function.update before.pc thread .holding other =
      .holding → other = thread := by
    intro other hother
    by_contra hne
    rw [Function.update_of_ne hne] at hother
    exact hinv.held other hother hfree
  constructor
  · exact .inr (hdesired.imp And.left id)
  · intro other _ hzero
    change desired = 0 at hzero
    rcases hdesired with ⟨rfl, -⟩ | rfl
    · exact absurd hzero (by decide)
    · exact absurd hzero (by decide)
  · exact fun left right hleft hright =>
      (hmine left hleft).trans (hmine right hright).symm
  · exact remembers_update hinv.remembers trivial
  · intro hparked
    refine attended_step hplaces ?_ ?_
      (hinv.attended (parked_before hplaces (by simp) hparked))
    · intro hbit
      rw [hfree] at hbit
      exact absurd hbit (by decide)
    · intro hattends
      rcases hdesired with ⟨-, hout⟩ | rfl
      · exact absurd hattends hout
      · exact .inl rfl

/-- A compare-exchange of the free word. -/
theorem Inv.compareExchange_free (hinv : Inv before) {desired : UInt32}
    (hdesired : desired = kHeldBit ∧ ¬ (before.pc thread).attends ∨
      desired = kHeldBit ||| kHasWaiterBit)
    (hpc : pc ≠ .holding) (hremembers : pc.Remembers) (hparks : pc ≠ .parked)
    (hstays : (before.pc thread).attends → pc.attends) :
    Inv (before.compareExchange thread 0 desired .holding pc) := by
  unfold State.compareExchange
  split
  next hfree => exact hinv.take hfree hdesired
  next => exact hinv.setPc hpc hremembers (fun hparked =>
      absurd hparked hparks) fun hattends => .inr (hstays hattends)

/-- Behind the spin comes the spin again or the slow path. -/
theorem afterSpin_cases (i : ℕ) :
    (∃ next, afterSpin i = .spinLoad next) ∨ afterSpin i = .load := by
  unfold afterSpin
  split
  · exact .inl ⟨_, rfl⟩
  · exact .inr rfl

theorem afterSpin_place (i : ℕ) : afterSpin i ≠ .holding ∧
    afterSpin i ≠ .parked ∧ (afterSpin i).Remembers := by
  rcases afterSpin_cases i with ⟨next, heq⟩ | heq
  · rw [heq]
    exact ⟨by simp, by simp, trivial⟩
  · rw [heq]
    exact ⟨by simp, by simp, trivial⟩

theorem load_attends : Pc.load.attends :=
  .inr trivial

/-- Setting the has-waiter bit. -/
theorem Inv.setWaiter (hinv : Inv before) :
    Inv ({ before with
      dispatchMutex := kHeldBit ||| kHasWaiterBit }.setPc thread
        (.wait (kHeldBit ||| kHasWaiterBit))) where
  word := .inr (.inr rfl)
  held _ _ := (by decide : kHeldBit ||| kHasWaiterBit ≠ 0)
  unique left right hleft hright :=
    hinv.unique left right (holding_before (by simp) hleft)
      (holding_before (by simp) hright)
  remembers := remembers_update hinv.remembers rfl
  attended _ := .inl rfl

/-- Outside the slow path and the wake. -/
theorem not_attends (hout : pc ≠ .wake) (hslow : ¬ pc.inSlowPath) :
    ¬ pc.attends := by
  rintro (heq | hin)
  · exact hout heq
  · exact hslow hin

theorem stepLock_inv (hinv : Inv before)
    (hstep : stepLock before thread = some after) : Inv after := by
  have hremembers := hinv.remembers thread
  cases hpc : before.pc thread with
  | tryLock =>
      simp only [stepLock, hpc, Option.some.injEq] at hstep
      subst hstep
      have hout : ¬ (before.pc thread).attends := by
        rw [hpc]
        exact not_attends (by simp) id
      exact hinv.compareExchange_free (.inl ⟨rfl, hout⟩) (by simp) trivial
        (by simp) fun hattends => absurd hattends hout
  | fastPath =>
      simp only [stepLock, hpc, Option.some.injEq] at hstep
      subst hstep
      have hout : ¬ (before.pc thread).attends := by
        rw [hpc]
        exact not_attends (by simp) id
      exact hinv.compareExchange_free (.inl ⟨rfl, hout⟩) (by simp) trivial
        (by simp) fun hattends => absurd hattends hout
  | spinLoad i =>
      obtain ⟨hholding, hparked, hplain⟩ := afterSpin_place i
      have hout : ¬ (before.pc thread).attends := by
        rw [hpc]
        exact not_attends (by simp) id
      simp only [stepLock, hpc] at hstep
      split at hstep
      · obtain rfl := Option.some.inj hstep
        exact hinv.setPc (by simp) trivial (by simp)
          fun hattends => absurd hattends hout
      · obtain rfl := Option.some.inj hstep
        exact hinv.setPc hholding hplain (fun heq => absurd heq hparked)
          fun hattends => absurd hattends hout
  | spinTryLock i =>
      obtain ⟨hholding, hparked, hplain⟩ := afterSpin_place i
      simp only [stepLock, hpc, Option.some.injEq] at hstep
      subst hstep
      have hout : ¬ (before.pc thread).attends := by
        rw [hpc]
        exact not_attends (by simp) id
      exact hinv.compareExchange_free (.inl ⟨rfl, hout⟩) hholding hplain
        hparked fun hattends => absurd hattends hout
  | load =>
      simp only [stepLock, hpc] at hstep
      split at hstep
      · obtain rfl := Option.some.inj hstep
        exact hinv.setPc (by simp) trivial (by simp)
          fun _ => .inr (.inr trivial)
      next hheld =>
        split at hstep
        next hbit =>
          obtain rfl := Option.some.inj hstep
          refine hinv.setPc (by simp) ?_ (by simp) fun _ => .inr (.inr trivial)
          rcases hinv.word with hword | hword | hword
          · exact absurd hword hheld
          · exact hword
          · rw [hword] at hbit
            exact absurd hbit (by decide)
        next hbit =>
          obtain rfl := Option.some.inj hstep
          refine hinv.setPc (by simp) ?_ (by simp) fun _ => .inr (.inr trivial)
          rcases hinv.word with hword | hword | hword
          · exact absurd hword hheld
          · rw [hword] at hbit
            exact absurd rfl hbit
          · exact hword
  | acquire =>
      simp only [stepLock, hpc, Option.some.injEq] at hstep
      subst hstep
      exact hinv.compareExchange_free (.inr rfl) (by simp) trivial (by simp)
        fun _ => load_attends
  | setWaiter cur =>
      rw [hpc] at hremembers
      obtain rfl : cur = kHeldBit := hremembers
      simp only [stepLock, hpc, Option.some.injEq] at hstep
      subst hstep
      unfold State.compareExchange
      split
      · exact hinv.setWaiter
      · exact hinv.setPc (by simp) trivial (by simp) fun _ => .inr load_attends
  | wait cur =>
      rw [hpc] at hremembers
      obtain rfl : cur = kHeldBit ||| kHasWaiterBit := hremembers
      simp only [stepLock, hpc] at hstep
      split at hstep
      next hword =>
        obtain rfl := Option.some.inj hstep
        exact hinv.setPc (by simp) trivial (fun _ => hword)
          fun _ => .inl hword
      next =>
        obtain rfl := Option.some.inj hstep
        exact hinv.setPc (by simp) trivial (by simp) fun _ => .inr load_attends
  | idle => simp [stepLock, hpc] at hstep
  | parked => simp [stepLock, hpc] at hstep
  | holding => simp [stepLock, hpc] at hstep
  | wake => simp [stepLock, hpc] at hstep

/-- The exchange of `dispatchGateUnlock`: a set bit turns into a pending
wake. -/
theorem Inv.unlock (hinv : Inv before) (hpc : before.pc thread = .holding) :
    Inv ({ before with dispatchMutex := 0 }.setPc thread
      (if before.dispatchMutex &&& kHasWaiterBit ≠ 0 then .wake else .idle)) := by
  set next : Pc :=
    if before.dispatchMutex &&& kHasWaiterBit ≠ 0 then .wake else .idle with hnext
  have hplain : next ≠ .holding ∧ next ≠ .parked ∧ next.Remembers := by
    rw [hnext]
    split
    · exact ⟨by simp, by simp, trivial⟩
    · exact ⟨by simp, by simp, trivial⟩
  have hplaces : ({ before with dispatchMutex := 0 }.setPc thread next).pc =
      Function.update before.pc thread next := rfl
  have hnobody : ∀ other, Function.update before.pc thread next other ≠
      .holding := by
    intro other hother
    have hheld := holding_before hplain.1 hother
    obtain rfl := hinv.unique other thread hheld hpc
    rw [Function.update_self] at hother
    exact hplain.1 hother
  constructor
  · exact .inl rfl
  · exact fun other hother => absurd hother (hnobody other)
  · exact fun left _ hleft => absurd hleft (hnobody left)
  · exact remembers_update hinv.remembers hplain.2.2
  · intro hparked
    refine attended_step hplaces ?_ ?_
      (hinv.attended (parked_before hplaces hplain.2.1 hparked))
    · intro hbit
      refine .inr (.inl ?_)
      rw [hnext, hbit, if_pos (by decide)]
    · intro hattends
      rw [hpc] at hattends
      exact absurd hattends (not_attends (by simp) id)

/-- A wake releases a parked thread if there is one. -/
theorem Inv.release (hinv : Inv before) {released : List ℕ}
    (hpc : before.pc thread = .wake)
    (hreleased : ∀ other ∈ released, before.pc other = .parked)
    (hwakes : (∃ other, before.pc other = .parked) → released ≠ []) :
    Inv ((before.release released).setPc thread .idle) := by
  have hplaces : ∀ other, ((before.release released).setPc thread .idle).pc
      other = if other = thread then .idle
        else if other ∈ released then .load else before.pc other := by
    intro other
    by_cases hmine : other = thread
    · simp [State.setPc, hmine]
    · simp [State.setPc, State.release, hmine]
  have hholding : ∀ other, ((before.release released).setPc thread .idle).pc
      other = .holding → before.pc other = .holding := by
    intro other hother
    rw [hplaces] at hother
    split at hother
    · cases hother
    split at hother
    · cases hother
    · exact hother
  refine ⟨hinv.word, fun other hother => hinv.held other (hholding other hother),
    fun left right hleft hright =>
      hinv.unique left right (hholding left hleft) (hholding right hright),
    fun other => ?_, ?_⟩
  · rw [hplaces]
    split
    · trivial
    split
    · trivial
    · exact hinv.remembers other
  · rintro ⟨parked, hparked⟩
    rw [hplaces] at hparked
    split at hparked
    · cases hparked
    split at hparked
    · cases hparked
    obtain ⟨other, hother⟩ :=
      List.exists_mem_of_ne_nil released (hwakes ⟨parked, hparked⟩)
    have hne : other ≠ thread := by
      rintro rfl
      have hwas := hreleased other hother
      rw [hpc] at hwas
      cases hwas
    refine .inr (.inr ⟨other, ?_⟩)
    rw [hplaces, if_neg hne, if_pos hother]
    trivial

theorem lock_inv {action : Action} {event : Option Empty} (hinv : Inv before)
    (hwakes : Wakes before action)
    (hstep : lock.step before action = some (after, event)) : Inv after := by
  cases action with
  | callTryLock thread =>
      simp only [lock] at hstep
      split at hstep
      next hpc =>
        obtain ⟨rfl, rfl⟩ := by simpa using hstep
        refine hinv.setPc (by simp) trivial (by simp) fun hattends => ?_
        rw [hpc] at hattends
        exact absurd hattends (not_attends (by simp) id)
      next => cases hstep
  | callLock thread =>
      simp only [lock] at hstep
      split at hstep
      next hpc =>
        obtain ⟨rfl, rfl⟩ := by simpa using hstep
        refine hinv.setPc (by simp) trivial (by simp) fun hattends => ?_
        rw [hpc] at hattends
        exact absurd hattends (not_attends (by simp) id)
      next => cases hstep
  | advance thread =>
      simp only [lock, Option.map_eq_some_iff, Prod.mk.injEq] at hstep
      obtain ⟨next, hnext, rfl, -⟩ := hstep
      exact stepLock_inv hinv hnext
  | failWeak thread =>
      simp only [lock] at hstep
      split at hstep
      · obtain ⟨rfl, rfl⟩ := by simpa using hstep
        exact hinv.setPc (by simp) trivial (by simp) fun _ => .inr load_attends
      · obtain ⟨rfl, rfl⟩ := by simpa using hstep
        exact hinv.setPc (by simp) trivial (by simp) fun _ => .inr load_attends
      · cases hstep
  | unlock thread =>
      simp only [lock] at hstep
      split at hstep
      next hpc =>
        simp only [Option.some.injEq, Prod.mk.injEq] at hstep
        obtain ⟨rfl, -⟩ := hstep
        exact hinv.unlock hpc
      next => cases hstep
  | wakeByAddressSingle thread released =>
      simp only [lock] at hstep
      split at hstep
      next hready =>
        obtain ⟨rfl, rfl⟩ := by simpa using hstep
        exact hinv.release hready.1 hready.2 hwakes
      next => cases hstep
  | returnEarly thread =>
      simp only [lock] at hstep
      split at hstep
      · obtain ⟨rfl, rfl⟩ := by simpa using hstep
        exact hinv.setPc (by simp) trivial (by simp) fun _ => .inr load_attends
      · cases hstep

theorem inv_start : Inv start where
  word := .inl rfl
  held := by
    intro thread hholding
    cases hholding
  unique := by
    intro left right hholding
    cases hholding
  remembers _ := trivial
  attended := by
    rintro ⟨thread, hparked⟩
    cases hparked

end Steps

/-! ## The gate -/

/-- At most one thread holds the gate, and parked threads are not left alone
with the free word. -/
structure LockSafe (state : State) : Prop where
  exclusive : ∀ left right, state.pc left = .holding →
    state.pc right = .holding → left = right
  noLostWake : ¬ (state.dispatchMutex = 0 ∧
    (∃ thread, state.pc thread = .parked) ∧
    (∀ thread, state.pc thread ≠ .wake) ∧
    ∀ thread, ¬ (state.pc thread).inSlowPath ∧ state.pc thread ≠ .holding)

/-- Any number of threads, any interleaving. -/
theorem lockSafe_of_wakes {trace : List Empty} {state : State}
    (run : Run lock Wakes start trace state) : LockSafe state := by
  have hinv : Inv state :=
    run.invariant (fun _ state => Inv state) inv_start
      fun hinv hwakes hstep => lock_inv hinv hwakes hstep
  refine ⟨hinv.unique, ?_⟩
  rintro ⟨hfree, hparked, hnowake, hnoslow⟩
  rcases hinv.attended hparked with hbit | ⟨thread, hwake⟩ | ⟨thread, hslow⟩
  · rw [hfree] at hbit
    exact absurd hbit (by decide)
  · exact hnowake thread hwake
  · exact (hnoslow thread).1 hslow

/-- Thread 1 spins, sets the bit and parks; thread 0 unlocks, thread 2 takes
the word with the bit clear, and thread 0 wakes thread 1. -/
def bargingSchedule : List Action :=
  List.flatten
    [[.callLock 0, .advance 0, .callLock 1, .advance 1],
      List.replicate 64 (.advance 1),
      [.advance 1, .advance 1, .advance 1, .unlock 0, .callTryLock 2,
        .advance 2, .wakeByAddressSingle 0 [1]]]

theorem lockSafe_barging :
    ∃ trace state, Run lock Wakes start trace state ∧
      state.dispatchMutex = kHeldBit ∧ state.pc 1 = .load ∧
        state.pc 2 = .holding ∧ LockSafe state := by
  obtain ⟨trace, state, run, hcheck⟩ : ∃ trace state,
      Run lock Wakes start trace state ∧
        (state.dispatchMutex == kHeldBit && state.pc 1 == .load &&
          state.pc 2 == .holding) = true := by
    refine run_of_checked lock
      (fun _ action => match action with
        | .wakeByAddressSingle _ released => released != []
        | _ => true)
      (fun _ => True) ?_ (fun _ _ _ => trivial) start trivial bargingSchedule
      (fun _ state => state.dispatchMutex == kHeldBit && state.pc 1 == .load &&
        state.pc 2 == .holding) (by decide +kernel)
    intro state action _ hcheck
    cases action with
    | wakeByAddressSingle thread released =>
        exact fun _ => by simpa using hcheck
    | _ => trivial
  simp only [Bool.and_eq_true, beq_iff_eq] at hcheck
  exact ⟨trace, state, run, hcheck.1.1, hcheck.1.2, hcheck.2,
    lockSafe_of_wakes run⟩

end Citor.AddressLock
