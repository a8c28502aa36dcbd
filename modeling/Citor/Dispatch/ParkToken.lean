import Citor.Dispatch.PoolSteps

/-!
# Bumps of the futex word and park tokens

Dispatches, the drains of cold-stamped acks and guard constructors bump the
futex word by a load and a store of their own.  Where no two bumps overlap,
the stored values climb and a worker whose park token is older than some bump
is never put to sleep.
-/

namespace Citor.ParkingPool

open Citor.Interleaving
open Citor.WorkerLoop

/-! ## What the claim speaks about -/

/-- The value an event stores. -/
def Event.stored : Event → Option ℕ
  | .bump value => some value
  | _ => none

/-- The word was bumped since a slot read its token last. -/
def StaleToken (trace : List Event) (slot : ℕ) : Prop :=
  ∃ earlier middle value, trace = earlier ++ .token slot :: middle ∧
    .token slot ∉ middle ∧ .bump value ∈ middle

/-- Every bump stores more than every bump before it, and nobody falls asleep
on a token from before a bump. -/
structure WakesKept (trace : List Event) : Prop where
  increasing : (trace.filterMap Event.stored).Pairwise (· < ·)
  awake : ∀ earlier slot later, trace = earlier ++ .slept slot :: later →
    ¬ StaleToken earlier slot

/-! ## Bumps in progress -/

/-- Whoever bumps the word: a thread that dispatches or a guard. -/
inductive Party
  | thread (thread : ℕ)
  | guard (index : ℕ)
  deriving DecidableEq, Repr

/-- The word a call has loaded and not stored yet. -/
def ProducerPc.heldWord : ProducerPc → Option ℕ
  | .drainStore _ _ word | .storeWord _ word => some word
  | _ => none

def GuardPc.heldWord : GuardPc → Option ℕ
  | .storeWord _ word => some word
  | _ => none

def State.heldWord (state : State) : Party → Option ℕ
  | .thread thread => (state.producer thread).heldWord
  | .guard index => (state.guards[index]?).bind fun guard => guard.pc.heldWord

/-- Whether an action loads the word in order to bump it. -/
def State.loadsWord (participants : ℕ) (state : State) : Action → Prop
  | .advance thread =>
      match state.producer thread with
      | .drain _ lowLatencyActive =>
          state.draining participants ∧ lowLatencyActive = false
      | .loadWord _ => True
      | _ => False
  | .advanceGuard index => ∃ guard slot, state.guards[index]? = some guard ∧
      guard.pc = .loadWord slot
  | _ => False

/-- Nobody loads the word for a bump between the load and the store of
another bump. -/
def BumpsApart (participants : ℕ) (state : State) (action : Action) : Prop :=
  state.loadsWord participants action → ∀ party, state.heldWord party = none

/-- The park token of a worker that is on its way to the futex wait. -/
def tokenOf : WorkerPc → Option ℕ
  | .recheck token | .parkTest token | .wait token => some token
  | _ => none

/-! ## What one step does to the word -/

section Steps

variable {participants : ℕ} {before after : State} {action : Action}
variable {event : Option Event}

@[simp] theorem heldWord_setProducer (state : State) (thread : ℕ)
    (pc : ProducerPc) : (state.setProducer thread pc).heldWord =
      Function.update state.heldWord (.thread thread) pc.heldWord := by
  funext party
  cases party with
  | thread other =>
      by_cases hsame : other = thread
      · simp [hsame, State.heldWord, State.setProducer]
      · simp [hsame, State.heldWord, State.setProducer]
  | guard index => simp [State.heldWord, State.setProducer]

/-- A step that keeps the word held as it was is quiet. -/
theorem heldWord_setProducer_of_eq {state : State} {thread : ℕ}
    {pc : ProducerPc} (hheld : pc.heldWord = (state.producer thread).heldWord) :
    (state.setProducer thread pc).heldWord = state.heldWord := by
  rw [heldWord_setProducer, hheld]
  exact Function.update_eq_self _ _

theorem heldWord_setGuard {state : State} {index : ℕ} {old guard : Guard}
    (hguard : state.guards[index]? = some old) :
    (state.setGuard index guard).heldWord =
      Function.update state.heldWord (.guard index) guard.pc.heldWord := by
  obtain ⟨hlength, -⟩ := List.getElem?_eq_some_iff.1 hguard
  funext party
  cases party with
  | thread other => simp [State.heldWord, State.setGuard]
  | guard other =>
      by_cases hsame : other = index
      · simp [hsame, State.heldWord, State.setGuard, hlength]
      · simp [hsame, State.heldWord, State.setGuard,
          List.getElem?_set_ne (Ne.symm hsame)]

/-- What a step does to the word and to the bumps in progress. -/
inductive WordStep (participants : ℕ) (before : State) (action : Action)
    (after : State) (event : Option Event) : Prop
  /-- Nobody's bump moves. -/
  | quiet (hword : after.control.futexWord = before.control.futexWord)
      (hheld : after.heldWord = before.heldWord)
      (hevent : ∀ value, event ≠ some (.bump value))
  /-- Somebody loads the word. -/
  | load (party : Party) (hloads : before.loadsWord participants action)
      (hword : after.control.futexWord = before.control.futexWord)
      (hheld : after.heldWord = Function.update before.heldWord party
        (some before.control.futexWord)) (hevent : event = none)
  /-- Somebody stores the word. -/
  | store (party : Party) (word : ℕ)
      (hholds : before.heldWord party = some word)
      (hword : after.control.futexWord = word + 1)
      (hheld : after.heldWord = Function.update before.heldWord party none)
      (hevent : event = some (.bump (word + 1)))

theorem behindPublish_heldWord (participants : ℕ) (dispatch : Dispatch) :
    (behindPublish participants dispatch).heldWord = none := by
  unfold behindPublish
  split
  · rfl
  · split <;> rfl

theorem behindDrain_heldWord (site : DrainSite) :
    (behindDrain site).heldWord = none := by
  cases site <;> rfl

theorem behindLease_heldWord (request : Request) (gateSkipped : Bool) :
    (behindLease request gateSkipped).heldWord = none := by
  unfold behindLease
  split <;> rfl

/-- Moving a call from one place without a loaded word to another. -/
theorem WordStep.quietCall {thread : ℕ} {state : State} {pc : ProducerPc}
    (hword : state.control.futexWord = before.control.futexWord)
    (hproducer : state.producer = before.producer)
    (hguards : state.guards = before.guards)
    (hidle : (before.producer thread).heldWord = none)
    (hpc : pc.heldWord = none) :
    WordStep participants before action (state.setProducer thread pc) none := by
  refine .quiet hword ?_ (by simp)
  rw [heldWord_setProducer_of_eq (by rw [hpc, hproducer, hidle])]
  funext party
  cases party <;> simp [State.heldWord, hproducer, hguards]

theorem stepProducer_word {thread : ℕ}
    (hstep : stepProducer participants before thread = some (after, event)) :
    WordStep participants before (.advance thread) after event := by
  cases hpc : before.producer thread <;>
    simp only [stepProducer, hpc, reduceCtorEq] at hstep
  case drain site lowLatencyActive =>
    split at hstep
    next hdraining =>
      split at hstep
      next => simp at hstep
      next hawake =>
        obtain ⟨rfl, rfl⟩ := by simpa using hstep
        refine .load (.thread thread) ?_ rfl (heldWord_setProducer _ _ _) rfl
        simpa [State.loadsWord, hpc] using
          ⟨hdraining, by simpa using hawake⟩
    next =>
      obtain ⟨rfl, rfl⟩ := by simpa using hstep
      exact .quietCall rfl rfl rfl (by rw [hpc]; rfl)
        (behindDrain_heldWord site)
  case loadWord dispatch =>
    obtain ⟨rfl, rfl⟩ := by simpa using hstep
    refine .load (.thread thread) ?_ rfl (heldWord_setProducer _ _ _) rfl
    simp [State.loadsWord, hpc]
  case drainStore site lowLatencyActive word =>
    obtain ⟨rfl, rfl⟩ := by simpa using hstep
    exact .store (.thread thread) word (by simp [State.heldWord, hpc,
      ProducerPc.heldWord]) rfl (heldWord_setProducer _ _ _) rfl
  case storeWord dispatch word =>
    obtain ⟨rfl, rfl⟩ := by simpa using hstep
    exact .store (.thread thread) word (by simp [State.heldWord, hpc,
      ProducerPc.heldWord]) rfl (heldWord_setProducer _ _ _) rfl
  case join dispatch elided slot =>
    repeat' split at hstep
    all_goals simp only [Option.some.injEq, Prod.mk.injEq, reduceCtorEq]
      at hstep
    all_goals
      obtain ⟨rfl, rfl⟩ := hstep
      exact .quietCall rfl rfl rfl (by rw [hpc]; rfl) rfl
  case publish dispatch slot =>
    split at hstep
    next =>
      obtain ⟨rfl, rfl⟩ := by simpa using hstep
      exact .quietCall rfl rfl rfl (by rw [hpc]; rfl) rfl
    next =>
      obtain ⟨rfl, rfl⟩ := by simpa using hstep
      exact .quietCall rfl rfl rfl (by rw [hpc]; rfl)
        (behindPublish_heldWord _ _)
  case lease request =>
    split at hstep
    all_goals
      obtain ⟨rfl, rfl⟩ := by simpa using hstep
    · exact .quietCall rfl rfl rfl (by rw [hpc]; rfl)
        (behindLease_heldWord _ _)
    · exact .quietCall rfl rfl rfl (by rw [hpc]; rfl) rfl
  case lock request =>
    split at hstep
    next => simp at hstep
    next =>
      obtain ⟨rfl, rfl⟩ := by simpa using hstep
      exact .quietCall rfl rfl rfl (by rw [hpc]; rfl)
        (behindLease_heldWord _ _)
  case coverStamp dispatch elided slot =>
    split at hstep
    all_goals
      obtain ⟨rfl, rfl⟩ := by simpa using hstep
      refine .quietCall rfl rfl rfl (by rw [hpc]; rfl) ?_
    · split <;> rfl
    · rfl
  case probe dispatch pendingProbe =>
    split at hstep
    next =>
      obtain ⟨rfl, rfl⟩ := by simpa using hstep
      exact .quietCall rfl rfl rfl (by rw [hpc]; rfl) rfl
    next => simp at hstep
  all_goals
    obtain ⟨rfl, rfl⟩ := by simpa using hstep
    exact .quietCall rfl rfl rfl (by rw [hpc]; rfl) rfl

/-- Moving a guard from one place without a loaded word to another. -/
theorem WordStep.quietGuard {index : ℕ} {old guard : Guard} {state : State}
    (hguard : before.guards[index]? = some old)
    (hword : state.control.futexWord = before.control.futexWord)
    (hproducer : state.producer = before.producer)
    (hguards : state.guards = before.guards)
    (hidle : old.pc.heldWord = none) (hpc : guard.pc.heldWord = none) :
    WordStep participants before action (state.setGuard index guard) none := by
  have hheld : state.heldWord = before.heldWord := by
    funext party
    cases party <;> simp [State.heldWord, hproducer, hguards]
  refine .quiet hword ?_ (by simp)
  have hold : state.guards[index]? = some old := by rw [hguards, hguard]
  rw [heldWord_setGuard hold, hheld, hpc]
  have hnone : before.heldWord (.guard index) = none := by
    simp [State.heldWord, hguard, hidle]
  rw [← hnone]
  exact Function.update_eq_self _ _

theorem stepGuard_word {index : ℕ}
    (hstep : stepGuard participants before index = some (after, event)) :
    WordStep participants before (.advanceGuard index) after event := by
  cases hguard : before.guards[index]? with
  | none => simp [stepGuard, hguard] at hstep
  | some guard =>
      have hheld : ∀ next : Guard, (before.setGuard index next).heldWord =
          Function.update before.heldWord (.guard index) next.pc.heldWord :=
        fun next => heldWord_setGuard hguard
      cases hpc : guard.pc <;>
        simp only [stepGuard, hguard, hpc, reduceCtorEq] at hstep
      case loadWord slot =>
        obtain ⟨rfl, rfl⟩ := by simpa using hstep
        refine .load (.guard index) ?_ rfl (heldWord_setGuard hguard) rfl
        exact ⟨guard, slot, hguard, hpc⟩
      case storeWord slot word =>
        obtain ⟨rfl, rfl⟩ := by simpa using hstep
        refine .store (.guard index) word ?_ rfl (heldWord_setGuard hguard) rfl
        simp [State.heldWord, hguard, hpc, GuardPc.heldWord]
      case awaitAck slot =>
        repeat' split at hstep
        all_goals simp only [Option.some.injEq, Prod.mk.injEq, reduceCtorEq]
          at hstep
        all_goals
          obtain ⟨rfl, rfl⟩ := hstep
          exact .quietGuard hguard rfl rfl rfl (by rw [hpc]; rfl) rfl
      all_goals
        obtain ⟨rfl, rfl⟩ := by simpa using hstep
        exact .quietGuard hguard rfl rfl rfl (by rw [hpc]; rfl) rfl

/-- A step that moves neither calls nor guards. -/
theorem WordStep.quietSlots
    (hword : after.control.futexWord = before.control.futexWord)
    (hproducer : after.producer = before.producer)
    (hguards : after.guards = before.guards)
    (hevent : ∀ value, event ≠ some (.bump value)) :
    WordStep participants before action after event := by
  refine .quiet hword ?_ hevent
  funext party
  cases party <;> simp [State.heldWord, hproducer, hguards]

theorem workerEvent_ne_bump (slot value : ℕ) (old new : Slot) :
    workerEvent slot old new ≠ some (.bump value) := by
  unfold workerEvent
  split <;> simp

theorem step_word
    (hstep : (pool participants).step before action = some (after, event)) :
    WordStep participants before action after event := by
  cases action <;> simp only [pool] at hstep
  case dispatch thread request =>
    split at hstep
    next hidle =>
      obtain ⟨rfl, rfl⟩ := by simpa using hstep
      refine .quietCall rfl rfl rfl (by rw [hidle]; rfl) ?_
      split <;> rfl
    next => simp at hstep
  case advance thread => exact stepProducer_word hstep
  case collect thread slot =>
    split at hstep
    next =>
      split at hstep
      next =>
        obtain ⟨rfl, rfl⟩ := by simpa using hstep
        exact .quietSlots rfl rfl rfl (by simp)
      next => simp at hstep
    next => simp at hstep
  case probeDone thread slot =>
    split at hstep
    next hpc =>
      split at hstep
      next =>
        obtain ⟨rfl, rfl⟩ := by simpa using hstep
        exact .quietCall rfl rfl rfl (by rw [hpc]; rfl) rfl
      next => simp at hstep
    next => simp at hstep
  case giveUp thread =>
    split at hstep
    next hpc =>
      obtain ⟨rfl, rfl⟩ := by simpa using hstep
      exact .quietCall rfl rfl rfl (by rw [hpc]; rfl) rfl
    next => simp at hstep
  case cover thread =>
    split at hstep
    next hpc =>
      split at hstep
      next =>
        obtain ⟨rfl, rfl⟩ := by simpa using hstep
        exact .quietCall rfl rfl rfl (by rw [hpc]; rfl) rfl
      next => simp at hstep
    next => simp at hstep
  case wakeTwo thread released =>
    split at hstep
    next next hnext =>
      split at hstep
      next =>
        obtain ⟨rfl, rfl⟩ := by simpa using hstep
        cases hpc : before.producer thread <;>
          simp only [behindWake, hpc, Option.some.injEq, reduceCtorEq] at hnext
        all_goals
          subst hnext
          exact .quietCall rfl rfl rfl (by rw [hpc]; rfl) rfl
      next => simp at hstep
    next => simp at hstep
  case worker slot =>
    split at hstep
    next =>
      obtain ⟨moved, -, hmoved⟩ := Option.map_eq_some_iff.1 hstep
      obtain ⟨rfl, rfl⟩ := by simpa using hmoved
      exact .quietSlots rfl rfl rfl fun value => workerEvent_ne_bump _ _ _ _
    next => simp at hstep
  case leaveSpin slot =>
    split at hstep
    next =>
      obtain ⟨moved, -, hmoved⟩ := Option.map_eq_some_iff.1 hstep
      obtain ⟨rfl, rfl⟩ := by simpa using hmoved
      exact .quietSlots rfl rfl rfl (by simp)
    next => simp at hstep
  case chainWake slot released =>
    split at hstep
    next =>
      split at hstep
      next =>
        obtain ⟨rfl, rfl⟩ := by simpa using hstep
        exact .quietSlots rfl rfl rfl (by simp)
      next => simp at hstep
    next => simp at hstep
  case interrupt slot =>
    split at hstep
    next =>
      obtain ⟨rfl, rfl⟩ := by simpa using hstep
      exact .quietSlots rfl rfl rfl (by simp)
    next => simp at hstep
  case engage thread onPool =>
    obtain ⟨rfl, rfl⟩ := by simpa using hstep
    refine .quiet (by cases onPool <;> rfl) ?_ (by simp)
    funext party
    cases party with
    | thread other => cases onPool <;> rfl
    | guard index =>
        cases onPool <;>
          simp only [State.heldWord, State.engage, Bool.false_eq_true,
            if_true, if_false, List.getElem?_append]
        all_goals
          split
          next => rfl
          next hlength =>
            rw [List.getElem?_eq_none (by omega : before.guards.length ≤ index)]
            cases index - before.guards.length <;> rfl
  case advanceGuard index => exact stepGuard_word hstep
  case retryWake index =>
    split at hstep
    next hguard =>
      obtain ⟨rfl, rfl⟩ := by simpa using hstep
      exact .quietGuard hguard rfl rfl rfl rfl rfl
    next => simp at hstep
  case disengage thread index =>
    split at hstep
    next guard hguard =>
      split at hstep
      next halive =>
        obtain ⟨rfl, rfl⟩ := by simpa using hstep
        refine .quietGuard hguard ?_ rfl rfl (by rw [halive]; rfl) rfl
        simp only [apply_ite Control.futexWord, ite_self]
      next => simp at hstep
    next => simp at hstep

/-! ## What one step does to the park tokens -/

/-- What a step does to the token a slot's worker carries. -/
def TokenStep (before after : State) (event : Option Event) (slot : ℕ) : Prop :=
  tokenOf (after.slots slot).pc = none ∨
    tokenOf (after.slots slot).pc = tokenOf (before.slots slot).pc ∧
      event ≠ some (.token slot) ∨
    tokenOf (after.slots slot).pc = some before.control.futexWord ∧
      event = some (.token slot)

@[simp] theorem tokenOf_examine (lastSeen mailbox : Mailbox) :
    tokenOf (examine lastSeen mailbox) = none := by
  unfold examine comparePhase
  repeat' split
  all_goals rfl

@[simp] theorem tokenOf_comparePhase (lastSeen mailbox : Mailbox) :
    tokenOf (comparePhase lastSeen mailbox) = none := by
  unfold comparePhase
  split <;> rfl

@[simp] theorem tokenOf_claim (slot : Slot) (mailbox : Mailbox) :
    tokenOf (slot.claim mailbox).pc = none := by
  unfold Slot.claim
  repeat' split
  all_goals rfl

@[simp] theorem tokenOf_stampDone (slot : Slot) (mailbox : Mailbox) :
    tokenOf (slot.stampDone mailbox).pc = none := by
  unfold Slot.stampDone
  repeat' split
  · exact tokenOf_examine _ _
  · rfl
  · rfl

/-- A worker's step keeps its token, drops it or reads it afresh. -/
theorem advance_token {control : Control} {slot after : Slot}
    (hstep : slot.advance control participants = some after) :
    tokenOf after.pc = none ∨
      tokenOf after.pc = tokenOf slot.pc ∧ slot.pc ≠ .loadToken ∨
      tokenOf after.pc = some control.futexWord ∧ slot.pc = .loadToken := by
  cases hpc : slot.pc <;> simp only [Slot.advance, hpc, reduceCtorEq] at hstep
  case loadToken =>
    obtain rfl := by simpa using hstep
    exact .inr (.inr ⟨rfl, rfl⟩)
  case storeEpoch epoch reload =>
    obtain rfl := by simpa using hstep
    cases reload <;> exact .inl rfl
  case spin =>
    split at hstep
    all_goals obtain rfl := by simpa using hstep
    · exact .inl (tokenOf_examine _ _)
    · exact .inl (by rw [hpc]; rfl)
  all_goals
    repeat' split at hstep
  all_goals
    obtain rfl := by simpa using hstep
    first
    | exact .inl rfl
    | exact .inr (.inl ⟨rfl, nofun⟩)
    | (left; simp)

theorem rouse_token (slot : Slot) : tokenOf slot.rouse.pc = tokenOf slot.pc := by
  unfold Slot.rouse
  split
  next hasleep => rw [hasleep]; rfl
  next => rfl

/-- A step that moves no worker. -/
theorem TokenStep.ofSlots (hslots : after.slots = before.slots)
    (hevent : ∀ slot, event ≠ some (.token slot)) (slot : ℕ) :
    TokenStep before after event slot :=
  .inr (.inl ⟨by rw [hslots], hevent slot⟩)

/-- A step that replaces one slot and keeps its token or drops it. -/
theorem TokenStep.ofSlot {index : ℕ} {moved : Slot} {state : State}
    (hslots : state.slots = Function.update before.slots index moved)
    (hmoved : tokenOf moved.pc = none ∨
      tokenOf moved.pc = tokenOf (before.slots index).pc)
    (slot : ℕ) : TokenStep before state none slot := by
  unfold TokenStep
  rw [hslots]
  by_cases hsame : slot = index
  · subst hsame
    rw [Function.update_self]
    rcases hmoved with hnone | hkept
    · exact .inl hnone
    · exact .inr (.inl ⟨hkept, by simp⟩)
  · rw [Function.update_of_ne hsame]
    exact .inr (.inl ⟨rfl, by simp⟩)

theorem stepProducer_token {thread : ℕ}
    (hstep : stepProducer participants before thread = some (after, event))
    (slot : ℕ) : TokenStep before after event slot := by
  cases hpc : before.producer thread <;>
    simp only [stepProducer, hpc, reduceCtorEq] at hstep
  case publish dispatch index =>
    split at hstep
    all_goals obtain ⟨rfl, rfl⟩ := by simpa using hstep
    · refine .ofSlot rfl ?_ slot
      exact .inr rfl
    · exact .ofSlots rfl (by simp) slot
  case coverStamp dispatch elided index =>
    split at hstep
    all_goals obtain ⟨rfl, rfl⟩ := by simpa using hstep
    · refine .ofSlot rfl ?_ slot
      exact .inr rfl
    · exact .ofSlots rfl (by simp) slot
  all_goals
    repeat' split at hstep
  all_goals simp only [Option.some.injEq, Prod.mk.injEq, reduceCtorEq] at hstep
  all_goals
    obtain ⟨rfl, rfl⟩ := hstep
    refine .ofSlots ?_ ?_ slot
    · rfl
    · simp

theorem stepGuard_token {index : ℕ}
    (hstep : stepGuard participants before index = some (after, event))
    (slot : ℕ) : TokenStep before after event slot := by
  cases hguard : before.guards[index]? with
  | none => simp [stepGuard, hguard] at hstep
  | some guard =>
      cases hpc : guard.pc <;>
        simp only [stepGuard, hguard, hpc, reduceCtorEq] at hstep
      case wakeAll first =>
        obtain ⟨rfl, rfl⟩ := by simpa using hstep
        exact .inr (.inl ⟨rouse_token _, by simp⟩)
      all_goals
        repeat' split at hstep
      all_goals simp only [Option.some.injEq, Prod.mk.injEq, reduceCtorEq]
        at hstep
      all_goals
        obtain ⟨rfl, rfl⟩ := hstep
        refine .ofSlots ?_ ?_ slot
        · rfl
        · simp

theorem step_token
    (hstep : (pool participants).step before action = some (after, event))
    (slot : ℕ) : TokenStep before after event slot := by
  cases action <;> simp only [pool] at hstep
  case advance thread => exact stepProducer_token hstep slot
  case advanceGuard index => exact stepGuard_token hstep slot
  case cover thread =>
    repeat' split at hstep
    all_goals simp only [Option.some.injEq, Prod.mk.injEq, reduceCtorEq] at hstep
    obtain ⟨rfl, rfl⟩ := hstep
    refine .ofSlot rfl ?_ slot
    exact .inr rfl
  case wakeTwo thread released =>
    repeat' split at hstep
    all_goals simp only [Option.some.injEq, Prod.mk.injEq, reduceCtorEq] at hstep
    obtain ⟨rfl, rfl⟩ := hstep
    refine .inr (.inl ⟨?_, by simp⟩)
    simp only [State.setProducer, rouseReleased]
    split
    · exact rouse_token _
    · rfl
  case worker index =>
    split at hstep
    next =>
      obtain ⟨moved, hmoved, hafter⟩ := Option.map_eq_some_iff.1 hstep
      obtain ⟨rfl, rfl⟩ := by simpa using hafter
      unfold TokenStep
      by_cases hsame : slot = index
      · subst hsame
        simp only [State.setSlot, Function.update_self]
        rcases advance_token hmoved with hnone | ⟨hkept, hpc⟩ | ⟨hread, hpc⟩
        · exact .inl hnone
        · refine .inr (.inl ⟨hkept, ?_⟩)
          unfold workerEvent
          split <;> simp_all
        · exact .inr (.inr ⟨hread, by simp [workerEvent, hpc]⟩)
      · refine .inr (.inl ⟨?_, ?_⟩)
        · simp [State.setSlot, hsame]
        · unfold workerEvent
          split <;> simp [Ne.symm hsame]
    next => simp at hstep
  case leaveSpin index =>
    split at hstep
    next =>
      obtain ⟨moved, hmoved, hafter⟩ := Option.map_eq_some_iff.1 hstep
      obtain ⟨rfl, rfl⟩ := by simpa using hafter
      unfold Slot.leaveSpin at hmoved
      split at hmoved
      next =>
        obtain rfl := by simpa using hmoved
        exact .ofSlot rfl (.inl rfl) slot
      next => simp at hmoved
    next => simp at hstep
  case chainWake index released =>
    repeat' split at hstep
    all_goals simp only [Option.some.injEq, Prod.mk.injEq, reduceCtorEq] at hstep
    obtain ⟨rfl, rfl⟩ := hstep
    unfold TokenStep
    by_cases hsame : slot = index
    · subst hsame
      left
      simp only [State.setSlot, rouseReleased, Function.update_self]
      split
      · rw [rouse_token]
        exact tokenOf_examine _ _
      · exact tokenOf_examine _ _
    · refine .inr (.inl ⟨?_, by simp⟩)
      simp only [State.setSlot, rouseReleased, Function.update_of_ne hsame]
      split
      · exact rouse_token _
      · rfl
  case interrupt index =>
    split at hstep
    all_goals simp only [Option.some.injEq, Prod.mk.injEq, reduceCtorEq] at hstep
    obtain ⟨rfl, rfl⟩ := hstep
    exact .ofSlot rfl (.inr (rouse_token _)) slot
  all_goals
    repeat' split at hstep
  all_goals simp only [Option.some.injEq, Prod.mk.injEq, reduceCtorEq] at hstep
  all_goals
    obtain ⟨rfl, rfl⟩ := hstep
    refine .ofSlots ?_ (by simp) slot
    first
    | rfl
    | (unfold State.engage; split <;> rfl)

/-- Only the word itself lets a worker fall asleep. -/
theorem step_slept {slot : ℕ}
    (hstep : (pool participants).step before action =
      some (after, some (.slept slot))) :
    tokenOf (before.slots slot).pc = some before.control.futexWord := by
  cases action <;> simp only [pool] at hstep
  case worker index =>
    split at hstep
    next =>
      obtain ⟨moved, hmoved, hafter⟩ := Option.map_eq_some_iff.1 hstep
      obtain ⟨-, hevent⟩ := by simpa using hafter
      unfold workerEvent at hevent
      split at hevent
      next => simp at hevent
      next token hwait hasleep =>
        obtain rfl : index = slot := by simpa using hevent
        simp only [Slot.advance, hwait] at hmoved
        split at hmoved
        next hword => rw [hwait, tokenOf, hword]
        next =>
          obtain rfl := by simpa using hmoved
          simp at hasleep
      next => simp at hevent
    next => simp at hstep
  case advance thread =>
    cases hpc : before.producer thread <;>
      simp only [stepProducer, hpc, reduceCtorEq] at hstep
    all_goals
      repeat' split at hstep
    all_goals simp at hstep
  case advanceGuard index =>
    unfold stepGuard at hstep
    repeat' split at hstep
    all_goals simp at hstep
  case leaveSpin index =>
    split at hstep <;> simp at hstep
  all_goals
    repeat' split at hstep
  all_goals simp at hstep

end Steps

/-! ## The failing schedule -/

/-- Thread 0's first call cold-collapses the one worker; thread 1 loads the
word in its drain, and thread 0 bumps the word twice before thread 1 stores
its own sum over the second bump. -/
def lostBump : List Action :=
  List.flatten
    [[.dispatch 0 (coldRequest false)], List.replicate 9 (.advance 0),
      [.wakeTwo 0 [], .advance 0, .cover 0], List.replicate 4 (.advance 0),
      -- thread 1 drains: it holds the word 1
      [.dispatch 1 (coldRequest true), .advance 1, .advance 1],
      List.replicate 3 (.worker 1),
      -- thread 0's second call, which the worker answers
      [.dispatch 0 lockedRequest], List.replicate 5 (.advance 0),
      [.collect 0 1], List.replicate 5 (.advance 0), [.wakeTwo 0 []],
      List.replicate 7 (.worker 1), [.leaveSpin 1],
      List.replicate 3 (.worker 1), List.replicate 3 (.advance 0),
      -- its third call, over which thread 1 stores
      [.dispatch 0 lockedRequest], List.replicate 10 (.advance 0),
      [.wakeTwo 0 [], .advance 1, .wakeTwo 1 [], .worker 1, .advance 0]]

/-- The worker sleeps through the third call: its token is older than that
call's bump, and the word came back to it. -/
theorem lostBump_not_wakesKept :
    ¬ ∀ participants trace state,
      Reaches (pool participants) start trace state → WakesKept trace := by
  intro hclaim
  obtain ⟨trace, state, run, htrace⟩ :=
    reaches_of_check (pool 2) start lostBump
      (fun trace state => decide (trace =
          [.bump 1, .bump 2, .token 1, .bump 3, .bump 2, .slept 1]) &&
        decide ((state.slots 1).pc = .asleep ∧ (state.slots 1).Unprocessed))
      (by decide +kernel)
  simp only [Bool.and_eq_true, decide_eq_true_eq] at htrace
  obtain ⟨rfl, -⟩ := htrace
  refine (hclaim 2 _ state run).awake
    [.bump 1, .bump 2, .token 1, .bump 3, .bump 2] 1 [] rfl ?_
  exact ⟨[.bump 1, .bump 2], [.bump 3, .bump 2], 3, rfl, by decide, by decide⟩

/-! ## Runs whose bumps keep apart -/

/-- What holds of the word along a run whose bumps keep apart. -/
structure TokenInv (trace : List Event) (state : State) : Prop where
  /-- Whoever holds a loaded word holds the current one, alone. -/
  held : ∀ party word, state.heldWord party = some word →
    word = state.control.futexWord ∧
      ∀ other, state.heldWord other ≠ none → other = party
  stored : ∀ value, .bump value ∈ trace → value ≤ state.control.futexWord
  token : ∀ slot token, tokenOf (state.slots slot).pc = some token →
    token ≤ state.control.futexWord ∧
      (StaleToken trace slot → token < state.control.futexWord)
  kept : WakesKept trace

/-- A token goes stale by a bump only, and never by being read. -/
theorem StaleToken.of_concat {trace : List Event} {event : Event} {slot : ℕ}
    (hstale : StaleToken (trace ++ [event]) slot) :
    event ≠ .token slot ∧
      ((∃ value, event = .bump value) ∨ StaleToken trace slot) := by
  obtain ⟨earlier, middle, value, htrace, hfresh, hbump⟩ := hstale
  rcases List.eq_nil_or_concat middle with rfl | ⟨rest, last, rfl⟩
  · simp at hbump
  · rw [List.concat_eq_append, ← List.cons_append, ← List.append_assoc]
      at htrace
    obtain ⟨rfl, hlast⟩ := List.append_inj' htrace rfl
    obtain rfl : event = last := by simpa using hlast
    rw [List.concat_eq_append, List.mem_append, List.mem_singleton]
      at hfresh hbump
    rw [not_or] at hfresh
    refine ⟨Ne.symm hfresh.2, ?_⟩
    rcases hbump with hrest | hlast
    · exact .inr ⟨earlier, rest, value, rfl, hfresh.1, hrest⟩
    · exact .inl ⟨value, hlast.symm⟩

theorem Event.eq_bump_of_stored {event : Event} {value : ℕ}
    (hstored : event.stored = some value) : event = .bump value := by
  cases event with
  | bump stored => rw [Option.some.inj hstored]
  | token | slept => simp [Event.stored] at hstored

/-- What one event adds to a sound trace. -/
theorem WakesKept.concat {trace : List Event} (hkept : WakesKept trace)
    {event : Event}
    (hbump : ∀ value, event = .bump value →
      ∀ earlier, .bump earlier ∈ trace → earlier < value)
    (hslept : ∀ slot, event = .slept slot → ¬ StaleToken trace slot) :
    WakesKept (trace ++ [event]) := by
  constructor
  · rw [List.filterMap_append, List.pairwise_append]
    refine ⟨hkept.increasing, ?_, ?_⟩
    · cases event with
      | bump value => exact List.pairwise_singleton _ _
      | token | slept => exact .nil
    intro earlier hearlier value hvalue
    obtain ⟨seen, hseen, hstored⟩ := List.mem_filterMap.1 hearlier
    obtain rfl := Event.eq_bump_of_stored hstored
    obtain ⟨last, hlast, hstored⟩ := List.mem_filterMap.1 hvalue
    obtain rfl : last = event := by simpa using hlast
    exact hbump value (Event.eq_bump_of_stored hstored) _ hseen
  · intro earlier slot later htrace
    rcases List.eq_nil_or_concat later with rfl | ⟨rest, last, rfl⟩
    · obtain ⟨rfl, hlast⟩ := List.append_inj' htrace rfl
      exact hslept slot (by simpa using hlast)
    · rw [List.concat_eq_append, ← List.cons_append, ← List.append_assoc]
        at htrace
      exact hkept.awake earlier slot rest (List.append_inj' htrace rfl).1

theorem tokenInv_start : TokenInv [] start where
  held := by
    intro party word hword
    cases party <;> simp [State.heldWord, start, ProducerPc.heldWord] at hword
  stored := by simp
  token := by
    intro slot token htoken
    simp [start, Slot.fresh, tokenOf] at htoken
  kept := by
    refine ⟨by simp, fun earlier slot later htrace => ?_⟩
    simp at htrace

section Invariant

variable {participants : ℕ} {before after : State} {action : Action}
variable {event : Option Event} {trace : List Event}

/-- The word only climbs. -/
theorem TokenInv.word_le (hinv : TokenInv trace before)
    (hstep : WordStep participants before action after event) :
    before.control.futexWord ≤ after.control.futexWord := by
  cases hstep with
  | quiet hword => exact hword.ge
  | load party hloads hword => exact hword.ge
  | store party word hholds hword =>
      have := (hinv.held party word hholds).1
      omega

/-- A bump climbs strictly. -/
theorem TokenInv.word_lt (hinv : TokenInv trace before)
    (hstep : WordStep participants before action after event) {value : ℕ}
    (hevent : event = some (.bump value)) :
    before.control.futexWord < value ∧ after.control.futexWord = value := by
  cases hstep with
  | quiet _ _ hquiet => exact absurd hevent (hquiet value)
  | load _ _ _ _ hnone => simp [hnone] at hevent
  | store party word hholds hword _ hstore =>
      obtain rfl : word + 1 = value := by simpa [hstore] using hevent
      have := (hinv.held party word hholds).1
      exact ⟨by omega, hword⟩

theorem TokenInv.held_step (hinv : TokenInv trace before)
    (hapart : BumpsApart participants before action)
    (hstep : WordStep participants before action after event) :
    ∀ party word, after.heldWord party = some word →
      word = after.control.futexWord ∧
        ∀ other, after.heldWord other ≠ none → other = party := by
  intro party word hword
  cases hstep with
  | quiet hsame hheld =>
      rw [hheld] at hword ⊢
      rw [hsame]
      exact hinv.held party word hword
  | load loader hloads hsame hheld =>
      have hnone := hapart hloads
      rw [hheld] at hword ⊢
      have honly : ∀ other word, Function.update before.heldWord loader
          (some before.control.futexWord) other = some word →
          other = loader ∧ word = before.control.futexWord := by
        intro other word hother
        by_cases hsame : other = loader
        · subst hsame
          exact ⟨rfl, by simpa using hother.symm⟩
        · simp [hsame, hnone] at hother
      obtain ⟨rfl, rfl⟩ := honly party word hword
      refine ⟨hsame.symm, fun other hother => ?_⟩
      obtain ⟨value, hvalue⟩ := Option.ne_none_iff_exists'.1 hother
      exact (honly other value hvalue).1
  | store storer stored hholds _ hheld =>
      have hcleared : ∀ other, after.heldWord other = none := by
        intro other
        rw [hheld]
        by_cases hsame : other = storer
        · simp [hsame]
        · rw [Function.update_of_ne hsame]
          by_contra hother
          exact hsame ((hinv.held storer stored hholds).2 other hother)
      simp [hcleared] at hword

theorem TokenInv.token_step (hinv : TokenInv trace before)
    (hword : WordStep participants before action after event)
    (htokens : ∀ slot, TokenStep before after event slot) :
    ∀ slot token, tokenOf (after.slots slot).pc = some token →
      token ≤ after.control.futexWord ∧
        (StaleToken (trace ++ event.toList) slot →
          token < after.control.futexWord) := by
  intro slot token htoken
  have hclimbs := hinv.word_le hword
  rcases htokens slot with hnone | ⟨hkept, hother⟩ | ⟨hread, hevent⟩
  · simp [hnone] at htoken
  · obtain ⟨hle, hstale⟩ := hinv.token slot token (hkept ▸ htoken)
    refine ⟨hle.trans hclimbs, fun hafter => ?_⟩
    cases event with
    | none =>
        rw [Option.toList_none, List.append_nil] at hafter
        exact (hstale hafter).trans_le hclimbs
    | some seen =>
        obtain ⟨-, ⟨value, rfl⟩ | hbefore⟩ := StaleToken.of_concat hafter
        · obtain ⟨hlt, hvalue⟩ := hinv.word_lt hword rfl
          omega
        · exact (hstale hbefore).trans_le hclimbs
  · subst hevent
    obtain rfl : before.control.futexWord = token := by
      simpa [hread] using htoken
    refine ⟨hclimbs, fun hafter => ?_⟩
    exact absurd rfl (StaleToken.of_concat hafter).1

theorem tokenInv_step (hinv : TokenInv trace before)
    (hapart : BumpsApart participants before action)
    (hstep : (pool participants).step before action = some (after, event)) :
    TokenInv (trace ++ event.toList) after := by
  have hword := step_word hstep
  have hclimbs := hinv.word_le hword
  refine ⟨hinv.held_step hapart hword, ?_,
    hinv.token_step hword (step_token hstep), ?_⟩
  · intro value hvalue
    rcases List.mem_append.1 hvalue with hold | hnew
    · exact (hinv.stored value hold).trans hclimbs
    · obtain rfl : event = some (.bump value) := by
        cases event <;> simp_all
      exact (hinv.word_lt hword rfl).2.ge
  · cases event with
    | none => simpa using hinv.kept
    | some seen =>
        refine hinv.kept.concat ?_ ?_
        · rintro value rfl earlier hearlier
          have := hinv.stored earlier hearlier
          have := hinv.word_lt hword rfl
          omega
        · rintro slot rfl hstale
          have hcarried := step_slept hstep
          exact absurd ((hinv.token slot _ hcarried).2 hstale) (lt_irrefl _)

/-- Where no two bumps overlap, every bump climbs and nobody is put to sleep
on a token from before a bump. -/
theorem wakesKept_of_run {state : State}
    (run : Run (pool participants) (BumpsApart participants) start trace
      state) : WakesKept trace :=
  (run.invariant TokenInv tokenInv_start fun hinv hapart hstep =>
    tokenInv_step hinv hapart hstep).kept

end Invariant

/-! ## A run with a guard, two calls and a worker that sleeps -/

/-- The test in front of a step where thread 0 alone dispatches: whoever loads
the word, nobody holds it. -/
def bumpCheck (state : State) : Action → Bool
  | .advance thread => thread == 0 &&
      ((state.producer 0).heldWord.isSome ||
        state.guards.all (·.pc.heldWord.isNone))
  | .advanceGuard index =>
      (state.heldWord (.guard index)).isSome ||
        ((state.producer 0).heldWord.isNone &&
          state.guards.all (·.pc.heldWord.isNone))
  | action => action.caller == none || action.caller == some 0

theorem bumpCheck_caller {state : State} {action : Action}
    (hcheck : bumpCheck state action = true) :
    action.caller = none ∨ action.caller = some 0 := by
  cases action <;> simp_all [bumpCheck, Action.caller]

/-- Nobody holds the word where neither thread 0 nor a guard does. -/
theorem heldWord_eq_none {state : State} (honly : state.OnlyFirstCalls)
    (hfirst : (state.producer 0).heldWord = none)
    (hguards : state.guards.all (·.pc.heldWord.isNone) = true)
    (party : Party) : state.heldWord party = none := by
  cases party with
  | thread thread =>
      by_cases hzero : thread = 0
      · rw [hzero]
        exact hfirst
      · simp [State.heldWord, honly thread hzero, ProducerPc.heldWord]
  | guard index =>
      cases hguard : state.guards[index]? with
      | none => simp [State.heldWord, hguard]
      | some guard =>
          have hmem := List.mem_of_getElem? hguard
          simpa [State.heldWord, hguard] using
            List.all_eq_true.1 hguards guard hmem

theorem bumpsApart_of_check {participants : ℕ} {state : State} {action : Action}
    (honly : state.OnlyFirstCalls) (hcheck : bumpCheck state action = true) :
    BumpsApart participants state action := by
  intro hloads
  cases action <;> simp only [State.loadsWord] at hloads
  case advance thread =>
    simp only [bumpCheck, Bool.and_eq_true, beq_iff_eq, Bool.or_eq_true]
      at hcheck
    obtain ⟨rfl, hholds | hguards⟩ := hcheck
    · cases hpc : state.producer 0 <;>
        simp [hpc, ProducerPc.heldWord] at hloads hholds
    · refine heldWord_eq_none honly ?_ hguards
      cases hpc : state.producer 0 <;>
        simp_all [ProducerPc.heldWord]
  case advanceGuard index =>
    obtain ⟨guard, slot, hguard, hpc⟩ := hloads
    simp only [bumpCheck, State.heldWord, hguard, Option.bind_some, hpc,
      GuardPc.heldWord, Option.isSome_none, Bool.false_or, Bool.and_eq_true,
      Option.isNone_iff_eq_none] at hcheck
    exact heldWord_eq_none honly hcheck.1 hcheck.2

/-- A call puts the worker to work, the worker falls asleep, a guard wakes it,
and a second call bumps the word again. -/
theorem wakesKept_guardedCalls :
    ∃ trace state, Run (pool 2) (BumpsApart 2) start trace state ∧
      trace = [.bump 1, .token 1, .slept 1, .bump 2, .bump 3] ∧
      WakesKept trace := by
  obtain ⟨trace, state, run, htrace⟩ :=
    run_of_checked (pool 2) bumpCheck State.OnlyFirstCalls
      (fun honly hcheck => bumpsApart_of_check honly hcheck)
      (fun honly hcheck hstep =>
        onlyFirstCalls_step honly (bumpCheck_caller hcheck) hstep)
      start (fun _ _ => rfl)
      (List.flatten
        [[.dispatch 0 lockedRequest], List.replicate 10 (.advance 0),
          [.wakeTwo 0 []], List.replicate 7 (.worker 1), [.leaveSpin 1],
          List.replicate 4 (.worker 1), List.replicate 3 (.advance 0),
          [.engage 1 true], List.replicate 4 (.advanceGuard 0),
          [.dispatch 0 (coldRequest true)], List.replicate 11 (.advance 0)])
      (fun trace _ => decide
        (trace = [.bump 1, .token 1, .slept 1, .bump 2, .bump 3]))
      (by decide +kernel)
  exact ⟨trace, state, run, by simpa using htrace, wakesKept_of_run run⟩

end Citor.ParkingPool
