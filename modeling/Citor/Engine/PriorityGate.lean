import Citor.Core.Census
import Citor.Core.Fairness

/-!
# Overtaking at the priority gate

Threads acquire and release the dispatch gate of one pool, each call with a
priority.  A program counter stands in front of the next atomic operation or
in front of the return; the mutex is any mutual-exclusion lock, fair or not.
-/

namespace Citor.PriorityGate

open Citor.Interleaving
open Citor.Census

inductive Priority
  | latency
  | throughput
  | background
  deriving DecidableEq, Repr

/-- Where a thread stands in `acquireDispatchGate`. -/
inductive Pc
  | idle
  | latencyRegister
  | latencyLock
  | latencyUnregister
  | throughputProbe
  | throughputTryLock
  | throughputRecheck
  | throughputBackOut
  | throughputRegister
  | throughputWait
  | throughputLock
  | throughputVerify
  | throughputUnlock
  | throughputUnregister
  | backgroundWaitLatency
  | backgroundWaitThroughput
  | backgroundLock
  | backgroundVerifyLatency
  | backgroundVerifyThroughput
  | backgroundUnlock
  /-- Done with the counters, about to return. -/
  | returning (priority : Priority)
  /-- The call has returned; about to release the gate. -/
  | holding (priority : Priority)
  deriving DecidableEq, Repr

inductive Event
  | called (thread : ℕ)
  | registered (thread : ℕ) (priority : Priority)
  | returned (thread : ℕ) (priority : Priority)
  | released (thread : ℕ)
  deriving DecidableEq, Repr

structure State where
  call : ℕ → Pc
  latencyWaiting : ℕ
  throughputWaiting : ℕ
  dispatchMutex : Option ℕ

inductive Action
  | acquire (thread : ℕ) (priority : Priority)
  /-- The next atomic operation of a call, its return or the release. -/
  | advance (thread : ℕ)
  /-- A `try_lock` that fails although the mutex may be free. -/
  | failTryLock (thread : ℕ)
  /-- A background caller found a throughput caller and reads both counters
  again. -/
  | respin (thread : ℕ)
  deriving DecidableEq, Repr

/-- The caller that takes the step. -/
def Action.thread : Action → ℕ
  | .acquire thread _ | .advance thread | .failTryLock thread
  | .respin thread => thread

section Step

variable (state : State) (thread : ℕ)

def State.setCall (pc : Pc) : State :=
  { state with call := Function.update state.call thread pc }

/-- The entry of `acquireDispatchGate`. -/
def acquireDispatchGate : Priority → Pc
  | .latency => .latencyRegister
  | .throughput => .throughputProbe
  | .background => .backgroundWaitLatency

/-- `dispatchGateLock`: it goes through when the mutex is free. -/
def State.lock (next : Pc) : Option (State × Option Event) :=
  if state.dispatchMutex = none then
    some ({ state with dispatchMutex := some thread }.setCall thread next, none)
  else none

/-- `dispatchGateUnlock`. -/
def State.unlock (next : Pc) : State :=
  { state with dispatchMutex := none }.setCall thread next

/-- One step of a thread's call.  A wait that finds its counter raised only
reads it again; that is no step. -/
def stepCall : Option (State × Option Event) :=
  match state.call thread with
  | .idle => none
  | .latencyRegister =>
      some ({ state with latencyWaiting := state.latencyWaiting + 1 }.setCall
        thread .latencyLock, some (.registered thread .latency))
  | .latencyLock => state.lock thread .latencyUnregister
  | .latencyUnregister =>
      some ({ state with latencyWaiting := state.latencyWaiting - 1 }.setCall
        thread (.returning .latency), none)
  | .throughputProbe =>
      if state.latencyWaiting = 0 then
        some (state.setCall thread .throughputTryLock, none)
      else some (state.setCall thread .throughputRegister, none)
  | .throughputTryLock =>
      if state.dispatchMutex = none then
        state.lock thread .throughputRecheck
      else some (state.setCall thread .throughputRegister, none)
  | .throughputRecheck =>
      if state.latencyWaiting = 0 then
        some (state.setCall thread (.returning .throughput), none)
      else some (state.setCall thread .throughputBackOut, none)
  | .throughputBackOut => some (state.unlock thread .throughputRegister, none)
  | .throughputRegister =>
      some ({ state with
        throughputWaiting := state.throughputWaiting + 1 }.setCall
        thread .throughputWait, some (.registered thread .throughput))
  | .throughputWait =>
      if state.latencyWaiting ≠ 0 then none
      else some (state.setCall thread .throughputLock, none)
  | .throughputLock => state.lock thread .throughputVerify
  | .throughputVerify =>
      if state.latencyWaiting ≠ 0 then
        some (state.setCall thread .throughputUnlock, none)
      else some (state.setCall thread .throughputUnregister, none)
  | .throughputUnlock => some (state.unlock thread .throughputWait, none)
  | .throughputUnregister =>
      some ({ state with
        throughputWaiting := state.throughputWaiting - 1 }.setCall
        thread (.returning .throughput), none)
  | .backgroundWaitLatency =>
      if state.latencyWaiting ≠ 0 then none
      else some (state.setCall thread .backgroundWaitThroughput, none)
  | .backgroundWaitThroughput =>
      if state.throughputWaiting ≠ 0 then none
      else some (state.setCall thread .backgroundLock, none)
  | .backgroundLock => state.lock thread .backgroundVerifyLatency
  | .backgroundVerifyLatency =>
      if state.latencyWaiting ≠ 0 then
        some (state.setCall thread .backgroundUnlock, none)
      else some (state.setCall thread .backgroundVerifyThroughput, none)
  | .backgroundVerifyThroughput =>
      if state.throughputWaiting ≠ 0 then
        some (state.setCall thread .backgroundUnlock, none)
      else some (state.setCall thread (.returning .background), none)
  | .backgroundUnlock => some (state.unlock thread .backgroundWaitLatency, none)
  | .returning priority =>
      some (state.setCall thread (.holding priority),
        some (.returned thread priority))
  | .holding _ => some (state.unlock thread .idle, some (.released thread))

end Step

/-- The gate under the calls of `threads` threads. -/
def gate (threads : ℕ) : Machine State Action Event where
  step state
    | .acquire thread priority =>
        if thread < threads ∧ state.call thread = .idle then
          some (state.setCall thread (acquireDispatchGate priority),
            some (.called thread))
        else none
    | .advance thread =>
        if thread < threads then stepCall state thread else none
    | .failTryLock thread =>
        if thread < threads ∧ state.call thread = .throughputTryLock then
          some (state.setCall thread .throughputRegister, none)
        else none
    | .respin thread =>
        if thread < threads ∧ state.call thread = .backgroundWaitThroughput ∧
            state.throughputWaiting ≠ 0 then
          some (state.setCall thread .backgroundWaitLatency, none)
        else none

def start : State where
  call := fun _ => .idle
  latencyWaiting := 0
  throughputWaiting := 0
  dispatchMutex := none

/-! ## What a program counter stands for -/

/-- The lanes that others defer to. -/
inductive Lane
  | latency
  | throughput
  deriving DecidableEq, Repr

def Lane.priority : Lane → Priority
  | .latency => .latency
  | .throughput => .throughput

def State.waiting (state : State) : Lane → ℕ
  | .latency => state.latencyWaiting
  | .throughput => state.throughputWaiting

/-- Program counters between a lane's increment and its decrement. -/
def Pc.registered : Lane → Pc → ℕ
  | .latency, .latencyLock | .latency, .latencyUnregister
  | .throughput, .throughputWait | .throughput, .throughputLock
  | .throughput, .throughputVerify | .throughput, .throughputUnlock
  | .throughput, .throughputUnregister => 1
  | _, _ => 0

/-- Program counters between locking and unlocking the mutex. -/
def Pc.holdsMutex : Pc → Bool
  | .latencyUnregister | .throughputRecheck | .throughputBackOut
  | .throughputVerify | .throughputUnlock | .throughputUnregister
  | .backgroundVerifyLatency | .backgroundVerifyThroughput
  | .backgroundUnlock | .returning _ | .holding _ => true
  | _ => false

/-- Program counters of a deferring caller past its last look at the lane's
counter. -/
def Pc.cleared : Lane → Pc → Bool
  | .latency, .throughputUnregister | .latency, .returning .throughput
  | .latency, .backgroundVerifyThroughput
  | _, .returning .background => true
  | _, _ => false

/-- Inside `acquireDispatchGate`. -/
def Pc.acquiring : Pc → Bool
  | .idle | .holding _ => false
  | _ => true

/-- What the step behind a program counter emits. -/
def Pc.emits (thread : ℕ) : Pc → Option Event
  | .idle => some (.called thread)
  | .latencyRegister => some (.registered thread .latency)
  | .throughputRegister => some (.registered thread .throughput)
  | .returning priority => some (.returned thread priority)
  | .holding _ => some (.released thread)
  | _ => none

/-- Returns that overtake a caller registered in the lane. -/
def Event.overtakes : Lane → Event → Bool
  | .latency, .returned _ .throughput | _, .returned _ .background => true
  | _, _ => false

/-- Whether a call is open, and whether its caller holds the gate. -/
def Pc.inCall (pc : Pc) : ℕ :=
  if pc.acquiring then 1 else 0

def Pc.inHold : Pc → ℕ
  | .holding _ => 1
  | _ => 0

def Event.returnedBy (thread : ℕ) : Event → Bool
  | .returned other _ => other == thread
  | _ => false

/-- Waiting for the gate behind a registration in the lane. -/
def Pc.window (lane : Lane) (pc : Pc) : Prop :=
  pc.registered lane = 1 ∨ pc = .returning lane.priority

/-! ## What a step can do -/

/-- The step of `thread` brings it to `pc`. -/
structure Moves (before after : State) (thread : ℕ) (pc : Pc)
    (event : Option Event) : Prop where
  call : after.call = Function.update before.call thread pc
  emits : event = (before.call thread).emits thread
  counters : ∀ lane, (before.call thread).registered lane ≤
      before.waiting lane →
    after.waiting lane + (before.call thread).registered lane =
      before.waiting lane + pc.registered lane
  locks : pc.holdsMutex = true → (before.call thread).holdsMutex = false →
    before.dispatchMutex = none ∧ after.dispatchMutex = some thread
  keeps : pc.holdsMutex = (before.call thread).holdsMutex →
    after.dispatchMutex = before.dispatchMutex
  unlocks : pc.holdsMutex = false → (before.call thread).holdsMutex = true →
    after.dispatchMutex = none
  clears : ∀ lane, pc.cleared lane = true →
    (before.call thread).cleared lane = true ∨
      before.waiting lane = 0 ∧ (before.call thread).holdsMutex = true
  overtakes : ∀ lane returned, event = some returned →
    returned.overtakes lane = true →
      (before.call thread).cleared lane = true ∧ pc.cleared lane = false
  registers : ∀ lane, event = some (.registered thread lane.priority) →
    pc.window lane
  stays : ∀ lane, (before.call thread).window lane →
    event ≠ some (.returned thread lane.priority) → pc.window lane
  calls : event.toList.count (.called thread) +
      (before.call thread).inCall =
    event.toList.countP (Event.returnedBy thread) + pc.inCall
  holds : event.toList.countP (Event.returnedBy thread) +
      (before.call thread).inHold =
    event.toList.count (.released thread) + pc.inHold

section Moves

variable {before after : State} {thread : ℕ} {event : Option Event}

theorem stepCall_moves (hstep : stepCall before thread = some (after, event)) :
    ∃ pc, Moves before after thread pc event := by
  cases hpc : before.call thread with
  | returning priority =>
      simp only [stepCall, hpc, Option.some.injEq, Prod.mk.injEq] at hstep
      obtain ⟨rfl, rfl⟩ := hstep
      refine ⟨.holding priority, rfl, by rw [hpc]; rfl, ?_, by simp [hpc,
        Pc.holdsMutex], fun _ => rfl, by simp [hpc, Pc.holdsMutex], ?_, ?_,
        by simp, ?_, by simp [hpc, Pc.inCall, Pc.acquiring, Event.returnedBy],
        by simp [hpc, Pc.inHold, Event.returnedBy]⟩
      all_goals intro lane
      all_goals rw [hpc]
      all_goals cases lane <;> cases priority <;>
        simp [Pc.registered, State.waiting, State.setCall, Pc.cleared,
          Event.overtakes, Pc.window, Lane.priority]
  | holding priority =>
      simp only [stepCall, hpc, Option.some.injEq, Prod.mk.injEq] at hstep
      obtain ⟨rfl, rfl⟩ := hstep
      refine ⟨.idle, rfl, by rw [hpc]; rfl, ?_, by simp [Pc.holdsMutex],
        by simp [hpc, Pc.holdsMutex], fun _ _ => rfl, ?_, ?_, by simp, ?_,
        by simp [hpc, Pc.inCall, Pc.acquiring, Event.returnedBy],
        by simp [hpc, Pc.inHold, Event.returnedBy]⟩
      all_goals intro lane
      all_goals rw [hpc]
      all_goals cases lane <;> cases priority <;>
        simp [Pc.registered, State.waiting, State.setCall, State.unlock,
          Pc.cleared, Event.overtakes, Pc.window, Lane.priority]
  | _ =>
      simp only [stepCall, hpc, State.lock] at hstep
      repeat' split at hstep
      all_goals
        first
          | (simp only [reduceCtorEq] at hstep)
          | (simp only [Option.some.injEq, Prod.mk.injEq] at hstep
             obtain ⟨rfl, rfl⟩ := hstep
             refine ⟨_, rfl, by rw [hpc]; rfl, ?_, ?_, ?_, ?_, ?_, ?_, ?_, ?_,
               by rw [hpc]; rfl, by rw [hpc]; rfl⟩
             · intro lane
               rw [hpc]
               intro hle
               cases lane <;> first | rfl | exact Nat.sub_add_cancel hle
             · rw [hpc]
               intro hlocks hfree
               first
                 | (cases hlocks; done)
                 | (cases hfree; done)
                 | exact ⟨‹_›, rfl⟩
             · rw [hpc]
               intro hsame
               first | rfl | cases hsame
             · rw [hpc]
               intro hfree hheld
               first | (cases hfree; done) | (cases hheld; done) | rfl
             · intro lane hcleared
               rw [hpc]
               cases lane <;>
                 first
                   | (cases hcleared; done)
                   | exact .inl rfl
                   | exact .inr ⟨‹_›, rfl⟩
                   | exact .inr ⟨not_not.1 ‹_›, rfl⟩
             · intro lane returned hsome hovertakes
               cases hsome
               all_goals cases lane <;> cases hovertakes
             · intro lane hregisters
               cases lane <;> first | exact .inl rfl | cases hregisters
             · intro lane hwindow _
               rw [hpc] at hwindow
               cases lane <;>
                 first
                   | exact .inl rfl
                   | exact .inr rfl
                   | (rcases hwindow with hin | hin <;> cases hin))

/-- A step outside the mutex and the counters. -/
theorem setCall_moves {pc : Pc}
    (hevent : event = (before.call thread).emits thread)
    (hregistered : ∀ lane, pc.registered lane =
      (before.call thread).registered lane)
    (hbefore : (before.call thread).holdsMutex = false)
    (hafter : pc.holdsMutex = false) (hclear : ∀ lane, pc.cleared lane = false)
    (hwindow : ∀ lane, ¬ (before.call thread).window lane)
    (hreturned : ∀ lane returned, event = some returned →
      returned.overtakes lane = false)
    (hquiet : ∀ lane, event ≠ some (.registered thread lane))
    (hcalls : event.toList.count (.called thread) +
        (before.call thread).inCall =
      event.toList.countP (Event.returnedBy thread) + pc.inCall)
    (hholds : event.toList.countP (Event.returnedBy thread) +
        (before.call thread).inHold =
      event.toList.count (.released thread) + pc.inHold) :
    Moves before (before.setCall thread pc) thread pc event where
  call := rfl
  emits := hevent
  counters lane _ := by
    rw [hregistered lane]
    cases lane <;> rfl
  locks hlocks := by
    rw [hafter] at hlocks
    cases hlocks
  keeps _ := rfl
  unlocks _ hheld := by
    rw [hbefore] at hheld
    cases hheld
  clears lane hcleared := by
    rw [hclear lane] at hcleared
    cases hcleared
  overtakes lane returned hsome hovertakes := by
    rw [hreturned lane returned hsome] at hovertakes
    cases hovertakes
  registers lane hregisters := absurd hregisters (hquiet _)
  stays lane hwaits := absurd hwaits (hwindow lane)
  calls := hcalls
  holds := hholds

theorem gate_moves {threads : ℕ} {action : Action}
    (hstep : (gate threads).step before action = some (after, event)) :
    action.thread < threads ∧
      ∃ pc, Moves before after action.thread pc event := by
  cases action with
  | acquire thread priority =>
      simp only [gate] at hstep
      split at hstep
      next hidle =>
        obtain ⟨hthread, hpc⟩ := hidle
        obtain ⟨rfl, rfl⟩ := by simpa using hstep
        refine ⟨hthread, _, setCall_moves ?_ ?_ ?_ ?_ ?_ ?_ ?_ ?_
          ?_ ?_⟩
        all_goals
          cases priority <;>
            simp [hpc, acquireDispatchGate, Pc.emits, Pc.registered,
              Pc.holdsMutex, Pc.cleared, Pc.window, Event.overtakes, Pc.inCall,
              Pc.acquiring, Pc.inHold, Event.returnedBy]
      next => cases hstep
  | advance thread =>
      simp only [gate] at hstep
      split at hstep
      next hthread => exact ⟨hthread, stepCall_moves hstep⟩
      next => cases hstep
  | failTryLock thread =>
      simp only [gate] at hstep
      split at hstep
      next hready =>
        obtain ⟨hthread, hpc⟩ := hready
        obtain ⟨rfl, rfl⟩ := by simpa using hstep
        refine ⟨hthread, _, setCall_moves ?_ ?_ ?_ ?_ ?_ ?_ ?_ ?_
          ?_ ?_⟩
        all_goals
          simp [hpc, Pc.emits, Pc.registered, Pc.holdsMutex, Pc.cleared,
            Pc.window, Pc.inCall, Pc.acquiring, Pc.inHold]
      next => cases hstep
  | respin thread =>
      simp only [gate] at hstep
      split at hstep
      next hready =>
        obtain ⟨hthread, hpc, -⟩ := hready
        obtain ⟨rfl, rfl⟩ := by simpa using hstep
        refine ⟨hthread, _, setCall_moves ?_ ?_ ?_ ?_ ?_ ?_ ?_ ?_
          ?_ ?_⟩
        all_goals
          simp [hpc, Pc.emits, Pc.registered, Pc.holdsMutex, Pc.cleared,
            Pc.window, Pc.inCall, Pc.acquiring, Pc.inHold]
      next => cases hstep

end Moves

/-! ## Counters and mutex -/

/-- The mutex is held where the program counters of the callers `among` say
so. -/
def MutexHeld (among : ℕ → Prop) (state : State) : Prop :=
  ∀ thread, among thread → ((state.call thread).holdsMutex = true ↔
    state.dispatchMutex = some thread)

/-- The counters count the registered callers, and the mutex is held where the
program counters say so. -/
structure Inv (threads : ℕ) (state : State) : Prop where
  waiting : ∀ lane, state.waiting lane =
    tally threads (Pc.registered lane) state.call
  holder : MutexHeld (fun thread => thread < threads) state
  inside : ∀ thread, state.dispatchMutex = some thread → thread < threads

section Invariant

variable {threads : ℕ} {before after : State} {thread : ℕ} {pc : Pc}
variable {event : Option Event}

theorem Inv.registered_le (hinv : Inv threads before)
    (hthread : thread < threads) (lane : Lane) :
    (before.call thread).registered lane ≤ before.waiting lane := by
  rw [hinv.waiting lane]
  exact le_tally hthread

theorem MutexHeld.moves {among : ℕ → Prop} (hthread : among thread)
    (hheld : MutexHeld among before)
    (hmoves : Moves before after thread pc event) : MutexHeld among after := by
  intro other hother
  rw [hmoves.call]
  have hold := hheld other hother
  have hmine := hheld thread hthread
  by_cases hself : other = thread
  · subst hself
    rw [Function.update_self]
    cases hlater : pc.holdsMutex <;> cases hnow : (before.call other).holdsMutex
    · rw [hmoves.keeps (hlater.trans hnow.symm), ← hold, hnow]
    · simp [hmoves.unlocks hlater hnow]
    · simp [(hmoves.locks hlater hnow).2]
    · rw [hmoves.keeps (hlater.trans hnow.symm), ← hold, hnow]
  · rw [Function.update_of_ne hself]
    cases hlater : pc.holdsMutex <;> cases hnow : (before.call thread).holdsMutex
    · rw [hmoves.keeps (hlater.trans hnow.symm), hold]
    · rw [hmoves.unlocks hlater hnow, hold, hmine.1 hnow]
      simp [Ne.symm hself]
    · obtain ⟨hfree, htaken⟩ := hmoves.locks hlater hnow
      rw [htaken, hold, hfree]
      simp [Ne.symm hself]
    · rw [hmoves.keeps (hlater.trans hnow.symm), hold]

theorem Inv.moves (hinv : Inv threads before) (hthread : thread < threads)
    (hmoves : Moves before after thread pc event) : Inv threads after where
  waiting := by
    intro lane
    have hcounter := hmoves.counters lane (hinv.registered_le hthread lane)
    have htally := tally_update hthread (Pc.registered lane) before.call pc
    have hwaiting := hinv.waiting lane
    rw [hmoves.call]
    omega
  holder := MutexHeld.moves hthread hinv.holder hmoves
  inside := by
    intro other hother
    cases hlater : pc.holdsMutex <;> cases hnow : (before.call thread).holdsMutex
    · rw [hmoves.keeps (hlater.trans hnow.symm)] at hother
      exact hinv.inside other hother
    · simp [hmoves.unlocks hlater hnow] at hother
    · rw [(hmoves.locks hlater hnow).2] at hother
      cases hother
      exact hthread
    · rw [hmoves.keeps (hlater.trans hnow.symm)] at hother
      exact hinv.inside other hother

theorem inv_start (threads : ℕ) : Inv threads start where
  waiting := by
    intro lane
    rw [tally_eq_zero fun _ _ => by cases lane <;> rfl]
    cases lane <;> rfl
  holder := by
    intro thread _
    simp [start, Pc.holdsMutex]
  inside := by
    intro thread hthread
    cases hthread

end Invariant

/-! ## Overtaking -/

section Overtaking

variable {threads : ℕ} {before after : State} {thread mover : ℕ} {pc : Pc}
variable {event : Option Event} {lane : Lane}

theorem Inv.holder_unique (hinv : Inv threads before) {left right : ℕ}
    (hleft : left < threads) (hright : right < threads)
    (hl : (before.call left).holdsMutex = true)
    (hr : (before.call right).holdsMutex = true) : left = right :=
  Option.some.inj (((hinv.holder left hleft).1 hl).symm.trans
    ((hinv.holder right hright).1 hr))

theorem holdsMutex_of_cleared (hcleared : pc.cleared lane = true) :
    pc.holdsMutex = true := by
  cases lane <;> cases pc <;> first | rfl | cases hcleared

theorem not_cleared_of_window (hwindow : pc.window lane) :
    pc.cleared lane = false := by
  rcases hwindow with hregistered | rfl
  · cases lane <;> cases pc <;> first | rfl | cases hregistered
  · cases lane <;> rfl

/-- Nobody gets past its last look while a caller of the lane waits. -/
theorem Inv.cleared_before (hinv : Inv threads before)
    (hthread : thread < threads) (hmover : mover < threads)
    (hwindow : (before.call thread).window lane) (hne : mover ≠ thread)
    (hmoves : Moves before after mover pc event)
    (hcleared : pc.cleared lane = true) :
    (before.call mover).cleared lane = true := by
  rcases hmoves.clears lane hcleared with hbefore | ⟨hzero, hholds⟩
  · exact hbefore
  rcases hwindow with hregistered | hreturning
  · have hle := hinv.registered_le hthread lane
    omega
  · have hmine : (before.call thread).holdsMutex = true := by
      rw [hreturning]
      rfl
    exact absurd (hinv.holder_unique hmover hthread hholds hmine) hne

/-- Nobody is past its last look at the lane. -/
def NoneCleared (threads : ℕ) (lane : Lane) (state : State) : Prop :=
  ∀ thread < threads, (state.call thread).cleared lane = false

/-- What a waiting caller has seen: nothing yet, or one overtaking after which
nobody is left that could overtake. -/
def Overtaken (threads : ℕ) (lane : Lane) (state : State) (count : ℕ) : Prop :=
  count = 0 ∨ count = 1 ∧ NoneCleared threads lane state

theorem Inv.overtaken_moves (hinv : Inv threads before)
    (hthread : thread < threads) (hmover : mover < threads)
    (hmoves : Moves before after mover pc event)
    (hwindow : (before.call thread).window lane)
    (hreturned : event ≠ some (.returned thread lane.priority)) {count : ℕ}
    (hovertaken : Overtaken threads lane before count) :
    (after.call thread).window lane ∧ Overtaken threads lane after
      (count + event.toList.countP (Event.overtakes lane)) := by
  have hstill : (after.call thread).window lane := by
    rw [hmoves.call]
    by_cases hself : thread = mover
    · subst hself
      rw [Function.update_self]
      exact hmoves.stays lane hwindow hreturned
    · rwa [Function.update_of_ne hself]
  have hothers : ∀ other, other ≠ mover →
      after.call other = before.call other := by
    intro other hother
    rw [hmoves.call, Function.update_of_ne hother]
  have hself : after.call mover = pc := by
    rw [hmoves.call, Function.update_self]
  refine ⟨hstill, ?_⟩
  by_cases hovertakes : ∃ returned, event = some returned ∧
      returned.overtakes lane = true
  · obtain ⟨returned, rfl, hovertakes⟩ := hovertakes
    obtain ⟨hcleared, hnext⟩ := hmoves.overtakes lane returned rfl hovertakes
    rcases hovertaken with rfl | ⟨-, hnone⟩
    · refine .inr ⟨by simp [hovertakes], fun other hother => ?_⟩
      by_cases hsame : other = mover
      · rw [hsame, hself, hnext]
      · rw [hothers other hsame]
        by_contra htrue
        exact hsame (hinv.holder_unique hother hmover
          (holdsMutex_of_cleared (Bool.not_eq_false _ ▸ htrue))
          (holdsMutex_of_cleared hcleared))
    · rw [hnone mover hmover] at hcleared
      cases hcleared
  · have hzero : event.toList.countP (Event.overtakes lane) = 0 := by
      cases event with
      | none => rfl
      | some returned =>
          have hnot : ¬ returned.overtakes lane = true :=
            fun hyes => hovertakes ⟨returned, rfl, hyes⟩
          simp [hnot]
    rw [hzero, Nat.add_zero]
    rcases hovertaken with hnothing | ⟨hone, hnone⟩
    · exact .inl hnothing
    · refine .inr ⟨hone, fun other hother => ?_⟩
      by_cases hsame : other = mover
      · subst hsame
        by_cases hmine : other = thread
        · rw [hmine]
          exact not_cleared_of_window hstill
        · rw [hself]
          by_contra htrue
          have hbefore := hinv.cleared_before hthread hother hwindow hmine
            hmoves (Bool.not_eq_false _ ▸ htrue)
          rw [hnone other hother] at hbefore
          cases hbefore
      · rw [hothers other hsame]
        exact hnone other hother

end Overtaking

/-! ## Whole runs -/

section Runs

variable {threads : ℕ} {trace : List Event} {before after state : State}
variable {thread mover : ℕ} {pc : Pc} {event : Option Event} {lane : Lane}

/-- What a run has brought about. -/
structure History (threads : ℕ) (trace : List Event) (state : State) :
    Prop where
  inv : Inv threads state
  windows : ∀ lane, ∀ thread < threads, ∀ earlier middle,
    trace = earlier ++ .registered thread lane.priority :: middle →
    .returned thread lane.priority ∉ middle →
      (state.call thread).window lane ∧
        Overtaken threads lane state (middle.countP (Event.overtakes lane))
  calls : ∀ thread < threads, trace.count (.called thread) =
    trace.countP (Event.returnedBy thread) + (state.call thread).inCall
  holds : ∀ thread < threads, trace.countP (Event.returnedBy thread) =
    trace.count (.released thread) + (state.call thread).inHold

theorem count_emits_of_ne (hne : thread ≠ mover) (pc : Pc) :
    (pc.emits mover).toList.count (.called thread) = 0 ∧
      (pc.emits mover).toList.countP (Event.returnedBy thread) = 0 ∧
      (pc.emits mover).toList.count (.released thread) = 0 := by
  cases pc <;> simp [Pc.emits, Event.returnedBy, hne.symm]

theorem eq_of_registers (hmoves : Moves before after mover pc event)
    (hregisters : event = some (.registered thread lane.priority)) :
    thread = mover := by
  have hemits := hmoves.emits
  rw [hregisters] at hemits
  cases hpc : before.call mover <;> rw [hpc] at hemits <;>
    simp_all [Pc.emits]

theorem History.windows_moves (hhistory : History threads trace before)
    (hmover : mover < threads) (hmoves : Moves before after mover pc event)
    (lane : Lane) (thread : ℕ) (hthread : thread < threads)
    {earlier middle : List Event}
    (hsplit : trace ++ event.toList =
      earlier ++ .registered thread lane.priority :: middle)
    (hwaits : .returned thread lane.priority ∉ middle) :
    (after.call thread).window lane ∧
      Overtaken threads lane after (middle.countP (Event.overtakes lane)) := by
  cases hevent : event with
  | none =>
      rw [hevent, Option.toList_none, List.append_nil] at hsplit
      obtain ⟨hwindow, hovertaken⟩ := hhistory.windows lane thread hthread
        earlier middle hsplit hwaits
      have hnext := hhistory.inv.overtaken_moves hthread hmover hmoves hwindow
        (by simp [hevent]) hovertaken
      simpa [hevent] using hnext
  | some last =>
      rw [hevent] at hsplit
      rcases List.eq_nil_or_concat middle with rfl | ⟨rest, final, rfl⟩
      · -- the registration itself
        obtain ⟨-, hlast⟩ := List.append_inj' hsplit rfl
        obtain rfl : last = .registered thread lane.priority := by
          simpa using hlast
        refine ⟨?_, .inl rfl⟩
        obtain rfl := eq_of_registers hmoves hevent
        rw [hmoves.call, Function.update_self]
        exact hmoves.registers lane hevent
      · have hparts : trace ++ [last] =
            (earlier ++ .registered thread lane.priority :: rest) ++
              [final] := by
          simpa using hsplit
        obtain ⟨htrace, hlast⟩ := List.append_inj' hparts rfl
        obtain rfl : last = final := by simpa using hlast
        rw [List.concat_eq_append, List.mem_append, not_or] at hwaits
        obtain ⟨hwindow, hovertaken⟩ := hhistory.windows lane thread hthread
          earlier rest htrace hwaits.1
        have hreturned : event ≠ some (.returned thread lane.priority) := by
          rw [hevent]
          intro hsame
          exact hwaits.2 (by simp [Option.some.inj hsame])
        have hnext := hhistory.inv.overtaken_moves hthread hmover hmoves
          hwindow hreturned hovertaken
        rw [hevent] at hnext
        rw [List.concat_eq_append, List.countP_append]
        exact hnext

theorem history_moves (hhistory : History threads trace before)
    (hmover : mover < threads) (hmoves : Moves before after mover pc event) :
    History threads (trace ++ event.toList) after where
  inv := hhistory.inv.moves hmover hmoves
  windows lane thread hthread _ _ :=
    hhistory.windows_moves hmover hmoves lane thread hthread
  calls := by
    intro thread hthread
    have hold := hhistory.calls thread hthread
    rw [List.count_append, List.countP_append, hmoves.call]
    by_cases hself : thread = mover
    · subst hself
      have hstep := hmoves.calls
      rw [Function.update_self]
      omega
    · obtain ⟨hcalled, hreturned, -⟩ :=
        count_emits_of_ne hself (before.call mover)
      rw [hmoves.emits, hcalled, hreturned, Function.update_of_ne hself]
      exact hold
  holds := by
    intro thread hthread
    have hold := hhistory.holds thread hthread
    rw [List.count_append, List.countP_append, hmoves.call]
    by_cases hself : thread = mover
    · subst hself
      have hstep := hmoves.holds
      rw [Function.update_self]
      omega
    · obtain ⟨-, hreturned, hreleased⟩ :=
        count_emits_of_ne hself (before.call mover)
      rw [hmoves.emits, hreleased, hreturned, Function.update_of_ne hself]
      exact hold

theorem history_start (threads : ℕ) : History threads [] start where
  inv := inv_start threads
  windows := by
    intro lane thread _ earlier middle hsplit
    simp at hsplit
  calls := fun _ _ => rfl
  holds := fun _ _ => rfl

theorem history_run
    (run : Reaches (gate threads) start trace state) :
    History threads trace state := by
  refine run.invariant (History threads) (history_start threads) ?_
  intro trace before action after event hhistory _ hstep
  obtain ⟨hmover, pc, hmoves⟩ := gate_moves hstep
  exact history_moves hhistory hmover hmoves

end Runs

/-! ## Every caller returns -/

/-- The steps a latency caller has ahead of it. -/
def Pc.latencyRank : Pc → ℕ
  | .latencyRegister => 5
  | .latencyLock => 4
  | .latencyUnregister => 3
  | .returning .latency => 2
  | .holding .latency => 1
  | _ => 0

/-- The same for a throughput caller; it backs off only behind a registered
latency caller. -/
def Pc.throughputRank (latencyWaits : Bool) : Pc → ℕ
  | .throughputProbe => 12
  | .throughputTryLock => 11
  | .throughputRecheck => 10
  | .throughputBackOut => 9
  | .throughputRegister => 8
  | .throughputUnlock => if latencyWaits then 5 else 7
  | .throughputWait => if latencyWaits then 4 else 6
  | .throughputLock => if latencyWaits then 7 else 5
  | .throughputVerify => if latencyWaits then 6 else 4
  | .throughputUnregister => 3
  | .returning .throughput => 2
  | .holding .throughput => 1
  | _ => 0

/-- The same for a background caller; it backs off behind either. -/
def Pc.backgroundRank (latencyWaits throughputWaits : Bool) : Pc → ℕ
  | .backgroundUnlock => if latencyWaits || throughputWaits then 5 else 9
  | .backgroundWaitLatency =>
      if latencyWaits || throughputWaits then 4 else 8
  | .backgroundWaitThroughput =>
      if latencyWaits then 9 else if throughputWaits then 4 else 7
  | .backgroundLock => if latencyWaits || throughputWaits then 8 else 6
  | .backgroundVerifyLatency =>
      if latencyWaits || throughputWaits then 7 else 5
  | .backgroundVerifyThroughput =>
      if latencyWaits || throughputWaits then 6 else 4
  | .returning .background => 2
  | .holding .background => 1
  | _ => 0

/-- Latency callers come first, then throughput callers. -/
def State.rank (threads : ℕ) (state : State) : ℕ ×ₗ ℕ ×ₗ ℕ :=
  toLex (tally threads Pc.latencyRank state.call,
    toLex (tally threads (Pc.throughputRank (state.latencyWaiting != 0))
        state.call,
      tally threads (Pc.backgroundRank (state.latencyWaiting != 0)
        (state.throughputWaiting != 0)) state.call))

section Returning

variable {threads : ℕ} {trace : List Event} {before after state : State}
variable {thread : ℕ} {pc : Pc} {event : Option Event}

theorem tally_lt {weight : Pc → ℕ} (hthread : thread < threads)
    (hcall : after.call = Function.update before.call thread pc)
    (hless : weight pc < weight (before.call thread)) :
    tally threads weight after.call < tally threads weight before.call := by
  have hupdate := tally_update hthread weight before.call pc
  rw [hcall]
  omega

theorem tally_same {weight : Pc → ℕ} (hthread : thread < threads)
    (hcall : after.call = Function.update before.call thread pc)
    (hsame : weight pc = weight (before.call thread)) :
    tally threads weight after.call = tally threads weight before.call := by
  have hupdate := tally_update hthread weight before.call pc
  rw [hcall]
  omega

theorem rank_of_latency (hthread : thread < threads)
    (hcall : after.call = Function.update before.call thread pc)
    (hless : pc.latencyRank < (before.call thread).latencyRank) :
    after.rank threads < before.rank threads :=
  Prod.Lex.toLex_lt_toLex.2 (.inl (tally_lt hthread hcall hless))

theorem rank_of_throughput (hthread : thread < threads)
    (hcall : after.call = Function.update before.call thread pc)
    (hwaiting : after.latencyWaiting = before.latencyWaiting)
    (hlatency : pc.latencyRank = (before.call thread).latencyRank)
    (hless : pc.throughputRank (before.latencyWaiting != 0) <
      (before.call thread).throughputRank (before.latencyWaiting != 0)) :
    after.rank threads < before.rank threads := by
  refine Prod.Lex.toLex_lt_toLex.2
    (.inr ⟨tally_same hthread hcall hlatency, ?_⟩)
  refine Prod.Lex.toLex_lt_toLex.2 (.inl ?_)
  rw [hwaiting]
  exact tally_lt hthread hcall hless

/-- A step of a background caller. -/
structure BackgroundStep (before after : State) (thread : ℕ) (pc : Pc) :
    Prop where
  call : after.call = Function.update before.call thread pc
  latencyWaiting : after.latencyWaiting = before.latencyWaiting
  throughputWaiting : after.throughputWaiting = before.throughputWaiting
  latency : pc.latencyRank = (before.call thread).latencyRank
  throughput : ∀ waits,
    pc.throughputRank waits = (before.call thread).throughputRank waits

theorem BackgroundStep.rank_lt (hthread : thread < threads)
    (hstep : BackgroundStep before after thread pc)
    (hless : pc.backgroundRank (before.latencyWaiting != 0)
        (before.throughputWaiting != 0) <
      (before.call thread).backgroundRank (before.latencyWaiting != 0)
        (before.throughputWaiting != 0)) :
    after.rank threads < before.rank threads := by
  refine Prod.Lex.toLex_lt_toLex.2
    (.inr ⟨tally_same hthread hstep.call hstep.latency, ?_⟩)
  rw [hstep.latencyWaiting, hstep.throughputWaiting]
  refine Prod.Lex.toLex_lt_toLex.2
    (.inr ⟨tally_same hthread hstep.call (hstep.throughput _), ?_⟩)
  exact tally_lt hthread hstep.call hless

theorem BackgroundStep.rank_eq (hthread : thread < threads)
    (hstep : BackgroundStep before after thread pc)
    (hsame : pc.backgroundRank (before.latencyWaiting != 0)
        (before.throughputWaiting != 0) =
      (before.call thread).backgroundRank (before.latencyWaiting != 0)
        (before.throughputWaiting != 0)) :
    after.rank threads = before.rank threads := by
  unfold State.rank
  rw [hstep.latencyWaiting, hstep.throughputWaiting,
    tally_same hthread hstep.call hstep.latency,
    tally_same hthread hstep.call (hstep.throughput _),
    tally_same hthread hstep.call hsame]

/-- A background caller that passes the first counter while the second is
raised goes round in its loop. -/
def State.Spins (state : State) (thread : ℕ) : Prop :=
  state.call thread = .backgroundWaitLatency ∧ state.throughputWaiting ≠ 0

theorem stepCall_rank (hthread : thread < threads)
    (hspins : ¬ before.Spins thread)
    (hstep : stepCall before thread = some (after, event)) :
    after.rank threads < before.rank threads := by
  cases hpc : before.call thread with
  | idle => simp [stepCall, hpc] at hstep
  | returning priority =>
      simp only [stepCall, hpc, Option.some.injEq, Prod.mk.injEq] at hstep
      obtain ⟨rfl, rfl⟩ := hstep
      cases priority with
      | latency =>
          exact rank_of_latency hthread rfl (by simp [hpc, Pc.latencyRank])
      | throughput =>
          exact rank_of_throughput hthread rfl rfl
            (by simp [hpc, Pc.latencyRank]) (by simp [hpc, Pc.throughputRank])
      | background =>
          have hstep : BackgroundStep before
              (before.setCall thread (.holding .background)) thread
              (.holding .background) :=
            ⟨rfl, rfl, rfl, by rw [hpc]; rfl, fun _ => by rw [hpc]; rfl⟩
          exact hstep.rank_lt hthread (by simp [hpc, Pc.backgroundRank])
  | holding priority =>
      simp only [stepCall, hpc, Option.some.injEq, Prod.mk.injEq] at hstep
      obtain ⟨rfl, rfl⟩ := hstep
      cases priority with
      | latency =>
          exact rank_of_latency hthread rfl (by simp [hpc, Pc.latencyRank])
      | throughput =>
          exact rank_of_throughput hthread rfl rfl
            (by simp [hpc, Pc.latencyRank]) (by simp [hpc, Pc.throughputRank])
      | background =>
          have hstep : BackgroundStep before (before.unlock thread .idle) thread
              .idle :=
            ⟨rfl, rfl, rfl, by rw [hpc]; rfl, fun _ => by rw [hpc]; rfl⟩
          exact hstep.rank_lt hthread (by simp [hpc, Pc.backgroundRank])
  | latencyRegister | latencyLock | latencyUnregister =>
      simp only [stepCall, hpc, State.lock] at hstep
      repeat' split at hstep
      all_goals try (simp only [reduceCtorEq] at hstep)
      all_goals
        simp only [Option.some.injEq, Prod.mk.injEq] at hstep
        obtain ⟨rfl, rfl⟩ := hstep
        exact rank_of_latency hthread rfl (by simp [hpc, Pc.latencyRank])
  | backgroundWaitLatency | backgroundWaitThroughput | backgroundLock
  | backgroundVerifyLatency | backgroundVerifyThroughput | backgroundUnlock =>
      simp only [stepCall, hpc, State.lock] at hstep
      repeat' split at hstep
      all_goals try (simp only [reduceCtorEq] at hstep)
      all_goals
        simp only [Option.some.injEq, Prod.mk.injEq] at hstep
        obtain ⟨rfl, rfl⟩ := hstep
        refine BackgroundStep.rank_lt hthread
          ⟨rfl, rfl, rfl, by rw [hpc]; rfl, fun _ => by rw [hpc]; rfl⟩ ?_
        simp only [hpc, Pc.backgroundRank]
        repeat' split
        all_goals simp_all [State.Spins]
  | _ =>
      simp only [stepCall, hpc, State.lock] at hstep
      repeat' split at hstep
      all_goals try (simp only [reduceCtorEq] at hstep)
      all_goals
        simp only [Option.some.injEq, Prod.mk.injEq] at hstep
        obtain ⟨rfl, rfl⟩ := hstep
        refine rank_of_throughput hthread rfl rfl
          (by simp [hpc, Pc.latencyRank]) ?_
        simp only [hpc, Pc.throughputRank]
        repeat' split
        all_goals simp_all

theorem spin_rank (hthread : thread < threads) (hspins : before.Spins thread)
    (hstep : stepCall before thread = some (after, event)) :
    after.rank threads = before.rank threads := by
  obtain ⟨hpc, hwaits⟩ := hspins
  simp only [stepCall, hpc] at hstep
  split at hstep
  · cases hstep
  next hlatency =>
    simp only [Option.some.injEq, Prod.mk.injEq] at hstep
    obtain ⟨rfl, rfl⟩ := hstep
    refine BackgroundStep.rank_eq hthread
      ⟨rfl, rfl, rfl, by rw [hpc]; rfl, fun _ => by rw [hpc]; rfl⟩ ?_
    simp_all [Pc.backgroundRank]

/-- The steps that get a caller further. -/
def Productive (state : State) : Action → Prop
  | .advance thread => ¬ state.Spins thread
  | .failTryLock _ => True
  | .acquire _ _ | .respin _ => False

/-- Everything but new calls. -/
def NoNewCall : Action → Prop
  | .acquire _ _ => False
  | _ => True

theorem rank_lower {action : Action} (hproductive : Productive before action)
    (hstep : (gate threads).step before action = some (after, event)) :
    after.rank threads < before.rank threads := by
  cases action with
  | acquire thread priority => exact hproductive.elim
  | respin thread => exact hproductive.elim
  | advance thread =>
      simp only [gate] at hstep
      split at hstep
      next hthread => exact stepCall_rank hthread hproductive hstep
      next => cases hstep
  | failTryLock thread =>
      simp only [gate] at hstep
      split at hstep
      next hready =>
        obtain ⟨rfl, rfl⟩ := by simpa using hstep
        exact rank_of_throughput hready.1 rfl rfl
          (by simp [hready.2, Pc.latencyRank])
          (by simp [hready.2, Pc.throughputRank])
      next => cases hstep

theorem rank_raise {action : Action} (hcall : NoNewCall action)
    (hstep : (gate threads).step before action = some (after, event)) :
    after.rank threads ≤ before.rank threads := by
  by_cases hproductive : Productive before action
  · exact (rank_lower hproductive hstep).le
  cases action with
  | acquire thread priority => exact hcall.elim
  | failTryLock thread => exact absurd trivial hproductive
  | advance thread =>
      simp only [gate] at hstep
      split at hstep
      next hthread => exact (spin_rank hthread (not_not.1 hproductive) hstep).le
      next => cases hstep
  | respin thread =>
      simp only [gate] at hstep
      split at hstep
      next hready =>
        obtain ⟨hthread, hpc, hwaits⟩ := hready
        obtain ⟨rfl, rfl⟩ := by simpa using hstep
        have hstep : BackgroundStep before
            (before.setCall thread .backgroundWaitLatency) thread
            .backgroundWaitLatency :=
          ⟨rfl, rfl, rfl, by rw [hpc]; rfl, fun _ => by rw [hpc]; rfl⟩
        by_cases hlatency : before.latencyWaiting = 0
        · exact (hstep.rank_eq hthread (by
            simp [hpc, Pc.backgroundRank, hlatency, hwaits])).le
        · exact (hstep.rank_lt hthread (by
            simp [hpc, Pc.backgroundRank, hlatency])).le
      next => cases hstep

/-- The holder of the mutex is never blocked. -/
theorem holder_advances (hholds : (before.call thread).holdsMutex = true) :
    stepCall before thread ≠ none := by
  cases hpc : before.call thread <;> rw [hpc] at hholds
  all_goals cases hholds
  all_goals
    simp only [stepCall, hpc]
    repeat' split
    all_goals simp

/-- Who is blocked at a free mutex waits for a raised counter. -/
theorem blocked_cases (hfree : before.dispatchMutex = none)
    (hblocked : stepCall before thread = none) :
    before.call thread = .idle ∨
      before.call thread = .throughputWait ∧ before.latencyWaiting ≠ 0 ∨
      before.call thread = .backgroundWaitLatency ∧
        before.latencyWaiting ≠ 0 ∨
      before.call thread = .backgroundWaitThroughput ∧
        before.throughputWaiting ≠ 0 := by
  cases hpc : before.call thread with
  | idle => exact .inl rfl
  | throughputWait =>
      simp only [stepCall, hpc] at hblocked
      split at hblocked
      next hwaits => exact .inr (.inl ⟨rfl, hwaits⟩)
      next => cases hblocked
  | backgroundWaitLatency =>
      simp only [stepCall, hpc] at hblocked
      split at hblocked
      next hwaits => exact .inr (.inr (.inl ⟨rfl, hwaits⟩))
      next => cases hblocked
  | backgroundWaitThroughput =>
      simp only [stepCall, hpc] at hblocked
      split at hblocked
      next hwaits => exact .inr (.inr (.inr ⟨rfl, hwaits⟩))
      next => cases hblocked
  | _ =>
      simp only [stepCall, hpc, State.lock, hfree, if_true] at hblocked
      repeat' split at hblocked
      all_goals cases hblocked

/-- As long as somebody is not done, somebody can get further. -/
theorem Inv.exists_productive (hinv : Inv threads state)
    (hbusy : ∃ thread < threads, state.call thread ≠ .idle) :
    ∃ action, Productive state action ∧
      (gate threads).step state action ≠ none := by
  have hadvance : ∀ thread < threads, ¬ state.Spins thread →
      stepCall state thread ≠ none → ∃ action, Productive state action ∧
        (gate threads).step state action ≠ none := by
    intro thread hthread hspins hstep
    refine ⟨.advance thread, hspins, ?_⟩
    simpa only [gate, if_pos hthread] using hstep
  cases hmutex : state.dispatchMutex with
  | some holder =>
      have hholder := hinv.inside holder hmutex
      have hholds := (hinv.holder holder hholder).2 hmutex
      refine hadvance holder hholder ?_ (holder_advances hholds)
      rintro ⟨hpc, -⟩
      rw [hpc] at hholds
      cases hholds
  | none =>
      -- a registered caller waits for earlier lanes only
      have hwaiter : ∀ lane, state.waiting lane ≠ 0 →
          ∃ thread < threads, (state.call thread).registered lane ≠ 0 := by
        intro lane hwaits
        rw [hinv.waiting lane] at hwaits
        exact exists_of_tally_pos hwaits
      by_cases hlatency : state.latencyWaiting = 0
      · by_cases hthroughput : state.throughputWaiting = 0
        · obtain ⟨thread, hthread, hnot⟩ := hbusy
          refine hadvance thread hthread
            (fun hspins => hspins.2 hthroughput) fun hblocked => ?_
          rcases blocked_cases hmutex hblocked with
            hidle | ⟨-, hwaits⟩ | ⟨-, hwaits⟩ | ⟨-, hwaits⟩
          · exact hnot hidle
          · exact hwaits hlatency
          · exact hwaits hlatency
          · exact hwaits hthroughput
        · obtain ⟨thread, hthread, hregistered⟩ :=
            hwaiter .throughput hthroughput
          refine hadvance thread hthread ?_ fun hblocked => ?_
          · rintro ⟨hpc, -⟩
            exact hregistered (by rw [hpc]; rfl)
          · rcases blocked_cases hmutex hblocked with
              hpc | ⟨-, hwaits⟩ | ⟨hpc, -⟩ | ⟨hpc, -⟩
            · exact hregistered (by rw [hpc]; rfl)
            · exact hwaits hlatency
            · exact hregistered (by rw [hpc]; rfl)
            · exact hregistered (by rw [hpc]; rfl)
      · obtain ⟨thread, hthread, hregistered⟩ := hwaiter .latency hlatency
        refine hadvance thread hthread ?_ fun hblocked => ?_
        · rintro ⟨hpc, -⟩
          exact hregistered (by rw [hpc]; rfl)
        · rcases blocked_cases hmutex hblocked with
            hpc | ⟨hpc, -⟩ | ⟨hpc, -⟩ | ⟨hpc, -⟩
          all_goals exact hregistered (by rw [hpc]; rfl)

/-- Without new calls every caller returns, and releases the gate. -/
theorem Inv.returns (hinv : Inv threads state)
    (run : LiveRun (gate threads) NoNewCall Productive state) :
    ∃ time, ∀ thread < threads, (run.state time).call thread = .idle := by
  refine run.reaches_goal (State.rank threads) (Inv threads)
    (fun state => ∀ thread < threads, state.call thread = .idle) hinv
    ?_ ?_ ?_ ?_
  · intro before action after event hbefore _ hstep
    obtain ⟨hmover, pc, hmoves⟩ := gate_moves hstep
    exact hbefore.moves hmover hmoves
  · intro state hstate hbusy
    refine hstate.exists_productive ?_
    push Not at hbusy
    exact hbusy
  · intro before action after event _ hproductive hstep
    exact rank_lower hproductive hstep
  · intro before action after event _ hcall hstep
    exact rank_raise hcall hstep

end Returning

/-! ## The gate -/

/-- What holds of the gate after every run. -/
structure GateSound (threads : ℕ) (trace : List Event) (state : State) :
    Prop where
  /-- No decrement finds its counter at zero. -/
  noUnderflow : ∀ thread < threads,
    (state.call thread = .latencyUnregister → 0 < state.latencyWaiting) ∧
      (state.call thread = .throughputUnregister →
        0 < state.throughputWaiting)
  quiet : (∀ thread < threads, (state.call thread).acquiring = false) →
    state.latencyWaiting = 0 ∧ state.throughputWaiting = 0
  /-- Between a registration in the lane and the return of its caller. -/
  overtaken : ∀ lane, ∀ thread < threads, ∀ earlier middle later,
    trace = earlier ++ .registered thread lane.priority :: (middle ++ later) →
    .returned thread lane.priority ∉ middle →
      middle.countP (Event.overtakes lane) ≤ 1
  holds : ∀ thread < threads, ∀ priority,
    state.call thread = .holding priority → state.dispatchMutex = some thread
  /-- A call returns at most once, exactly once if it is not open any more, and
  each return is followed by its release. -/
  once : ∀ thread < threads,
    trace.count (.called thread) = trace.countP (Event.returnedBy thread) +
        (state.call thread).inCall ∧
      trace.countP (Event.returnedBy thread) =
        trace.count (.released thread) + (state.call thread).inHold
  returns : ∀ run : LiveRun (gate threads) NoNewCall Productive state,
    ∃ time, ∀ thread < threads, (run.state time).call thread = .idle

/-- For any number of threads, calls and priorities and any interleaving. -/
theorem gateSound_of_calls {threads : ℕ} {trace : List Event} {state : State}
    (run : Reaches (gate threads) start trace state) :
    GateSound threads trace state := by
  have hhistory := history_run run
  constructor
  · intro thread hthread
    have hlatency := hhistory.inv.registered_le hthread .latency
    have hthroughput := hhistory.inv.registered_le hthread .throughput
    constructor
    · intro hpc
      rw [hpc] at hlatency
      exact hlatency
    · intro hpc
      rw [hpc] at hthroughput
      exact hthroughput
  · intro hquiet
    have hzero : ∀ lane, state.waiting lane = 0 := by
      intro lane
      rw [hhistory.inv.waiting lane]
      refine tally_eq_zero fun thread hthread => ?_
      have hout := hquiet thread hthread
      cases hpc : state.call thread <;> rw [hpc] at hout
      all_goals cases hout
      all_goals cases lane <;> rfl
    exact ⟨hzero .latency, hzero .throughput⟩
  · intro lane thread hthread earlier middle later hsplit hwaits
    subst hsplit
    rw [← List.cons_append, ← List.append_assoc] at run
    obtain ⟨between, hcut⟩ := run.cut
    have hovertaken := ((history_run hcut).windows lane thread hthread earlier
      middle rfl hwaits).2
    rcases hovertaken with hnothing | ⟨hone, -⟩
    · exact hnothing.le.trans (Nat.zero_le 1)
    · exact hone.le
  · intro thread hthread priority hpc
    refine (hhistory.inv.holder thread hthread).1 ?_
    rw [hpc]
    rfl
  · exact fun thread hthread =>
      ⟨hhistory.calls thread hthread, hhistory.holds thread hthread⟩
  · exact hhistory.inv.returns

/-- A background call is past its last look at the latency counter when a
latency caller registers, and returns first. -/
theorem gateSound_overtaken :
    ∃ trace state, Reaches (gate 2) start trace state ∧
      trace = [.called 0, .called 1, .registered 1 .latency,
        .returned 0 .background] ∧ GateSound 2 trace state := by
  obtain ⟨trace, state, run, hcheck⟩ : ∃ trace state,
      Reaches (gate 2) start trace state ∧
        (trace == [.called 0, .called 1, .registered 1 .latency,
          .returned 0 .background]) = true :=
    reaches_of_check (gate 2) start
      [.acquire 0 .background, .advance 0, .advance 0, .advance 0, .advance 0,
        .acquire 1 .latency, .advance 1, .advance 0, .advance 0]
      (fun trace _ => trace == [.called 0, .called 1, .registered 1 .latency,
        .returned 0 .background]) (by decide)
  exact ⟨trace, state, run, eq_of_beq hcheck, gateSound_of_calls run⟩

end Citor.PriorityGate
