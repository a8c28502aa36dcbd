import Citor.Dispatch.ParkToken
import Citor.Dispatch.PoolInvariant

/-!
# The chain of wakes

A dispatch wakes two of the parked workers, and every woken worker that finds
a new phase wakes two more.  The kernel picks the waiters, and a worker that
has finished its share may be parked again before the wake is issued, so the
chain can be spent on workers that have nothing to pass on.
-/

namespace Citor.ParkingPool

open Citor.Interleaving
open Citor.WorkerLoop
open WorkerSlots (MailboxWord)

/-! ## What the claim speaks about -/

/-- Behind the bump of a dispatch that wakes: the wake, slot 0 and the join. -/
def ProducerPc.behindBump : ProducerPc → Bool
  | .wake _ | .body _ false | .join _ false _ | .coverBody _ false _
  | .coverStamp _ false _ | .coverMark _ false _ => true
  | _ => false

/-- A dispatch that has bumped the word awaits the slot, whose worker is
asleep and has not processed the phase. -/
def State.Neglected (participants : ℕ) (state : State) (slot : ℕ) : Prop :=
  (∃ thread, (state.producer thread).behindBump = true ∧
    (state.producer thread).awaits slot) ∧
    (1 ≤ slot ∧ slot < participants) ∧
    (state.slots slot).pc = .asleep ∧ (state.slots slot).Unprocessed

/-- Whoever wakes workers. -/
inductive Waker
  | thread (thread : ℕ)
  | guard (index : ℕ)
  | worker (slot : ℕ)
  deriving DecidableEq, Repr

/-- On the way to a wake. -/
def ProducerPc.wakes : ProducerPc → Bool
  | .drainStore _ _ _ | .drainWake _ _ | .loadWord _ | .storeWord _ _
  | .wake _ => true
  | _ => false

def GuardPc.wakes : GuardPc → Bool
  | .raise | .loadWord _ | .storeWord _ _ | .wakeAll _ => true
  | .awaitAck _ | .alive | .destroyed => false

/-- In front of the wake that a worker passes on. -/
def chaining : WorkerPc → Bool
  | .chainWake _ => true
  | _ => false

/-- The worker is awake and passes the wake on. -/
def Propagates (slot : Slot) : Prop :=
  chaining slot.pc = true ∨
    slot.pc = .woken ∧ slot.mailbox.chainPhase ≠ slot.lastSeen.chainPhase

instance (slot : Slot) : Decidable (Propagates slot) :=
  inferInstanceAs (Decidable (_ ∨ _))

def State.wakes (participants : ℕ) (state : State) : Waker → Prop
  | .thread thread => (state.producer thread).wakes = true
  | .guard index => ∃ guard, state.guards[index]? = some guard ∧
      guard.pc.wakes = true
  | .worker slot => (1 ≤ slot ∧ slot < participants) ∧
      Propagates (state.slots slot)

/-- Whom the kernel releases for a wake of two. -/
def Action.wakeOfTwo : Action → Option (List ℕ)
  | .wakeTwo _ released | .chainWake _ released => some released
  | _ => none

/-- The kernel's choice: a wake of two that leaves a neglected worker asleep
releases one with an unprocessed phase. -/
def WakeUseful (participants : ℕ) (state : State) (action : Action) : Prop :=
  ∀ released, action.wakeOfTwo = some released →
    ∀ slot, slot ∉ released → state.Neglected participants slot →
      ∃ index ∈ released, (1 ≤ index ∧ index < participants) ∧
        (state.slots index).Unprocessed

/-- Dispatch sections keep apart, bumps keep apart, and no wake is spent on
workers with nothing to pass on while a neglected one sleeps. -/
def ChainSafe (participants : ℕ) (state : State) (action : Action) : Prop :=
  SectionsApart state action ∧ BumpsApart participants state action ∧
    WakeUseful participants state action

/-! ## What one step does to a slot -/

section Slots

variable {control : Control} {participants word : ℕ} {old new : Slot}

/-- How a slot changes while nobody publishes to it. -/
structure ParkStep (word : ℕ) (old new : Slot) : Prop where
  waits : ∀ token, new.pc = .wait token → new.Unprocessed →
    old.pc = .wait token ∧ old.Unprocessed
  sleeps : new.pc = .asleep → new.Unprocessed →
    old.Unprocessed ∧ (old.pc = .asleep ∨ old.pc = .wait word)

theorem ParkStep.refl (word : ℕ) (slot : Slot) : ParkStep word slot slot :=
  ⟨fun _ hpc hnew => ⟨hpc, hnew⟩, fun hpc hnew => ⟨hnew, .inl hpc⟩⟩

/-- A step to a place outside the futex wait. -/
theorem ParkStep.ofAwake (hwait : ∀ token, new.pc ≠ .wait token)
    (hasleep : new.pc ≠ .asleep) : ParkStep word old new :=
  ⟨fun token hpc => absurd hpc (hwait token), fun hpc => absurd hpc hasleep⟩

theorem awake_examine (lastSeen mailbox : Mailbox) :
    (∀ token, examine lastSeen mailbox ≠ .wait token) ∧
      examine lastSeen mailbox ≠ .asleep := by
  unfold examine comparePhase
  repeat' split
  all_goals simp

theorem ParkStep.advance (hstays : old.pc.leaves = false)
    (hstep : old.advance control participants = some new) :
    ParkStep control.futexWord old new := by
  cases hpc : old.pc <;> simp only [Slot.advance, hpc, reduceCtorEq] at hstep
  case load =>
    obtain rfl := by simpa using hstep
    exact .ofAwake (awake_examine _ _).1 (awake_examine _ _).2
  case exitTest mailbox => simp [hpc, WorkerPc.leaves] at hstays
  case parkTest token => simp [hpc, WorkerPc.leaves] at hstays
  case enter mailbox =>
    obtain rfl := by simpa using hstep
    unfold Slot.claim
    repeat' split
    all_goals exact .ofAwake (by simp) (by simp)
  case stamp mailbox =>
    obtain rfl := by simpa using hstep
    unfold Slot.stampDone
    repeat' split
    · exact .ofAwake (awake_examine _ _).1 (awake_examine _ _).2
    · exact .ofAwake (by simp) (by simp)
    · exact .ofAwake (by simp) (by simp)
  case storeEpoch epoch reload =>
    obtain rfl := by simpa using hstep
    cases reload <;> exact .ofAwake (by simp) (by simp)
  case spin =>
    split at hstep
    all_goals obtain rfl := by simpa using hstep
    · exact .ofAwake (awake_examine _ _).1 (awake_examine _ _).2
    · exact .refl _ _
  case woken =>
    split at hstep
    all_goals obtain rfl := by simpa using hstep
    · exact .ofAwake (by simp) (by simp)
    · exact .ofAwake (awake_examine _ _).1 (awake_examine _ _).2
  case recheck token =>
    split at hstep
    next =>
      obtain rfl := by simpa using hstep
      exact .ofAwake (awake_examine _ _).1 (awake_examine _ _).2
    next hseen =>
      -- whoever goes on to the wait has just seen its mailbox unchanged
      have hsame : old.mailbox = old.lastSeen := by simpa using hseen
      split at hstep
      all_goals obtain rfl := by simpa using hstep
      · exact .ofAwake (by simp) (by simp)
      · refine ⟨fun _ _ hnew => absurd hnew ?_, fun hpark => by simp at hpark⟩
        simp [Slot.Unprocessed, hsame]
  case wait token =>
    split at hstep
    next hword =>
      obtain rfl := by simpa using hstep
      refine ⟨fun _ hpark => by simp at hpark, fun _ hnew =>
        ⟨hnew, .inr (by rw [hpc, hword])⟩⟩
    next =>
      obtain rfl := by simpa using hstep
      exact .ofAwake (by simp) (by simp)
  all_goals
    repeat' split at hstep
  all_goals
    obtain rfl := by simpa using hstep
    exact .ofAwake (by simp) (by simp)

theorem ParkStep.rouse (word : ℕ) (slot : Slot) :
    ParkStep word slot slot.rouse := by
  unfold Slot.rouse
  split
  · exact .ofAwake (by simp) (by simp)
  · exact .refl _ _

/-- Only the done bit of the mailbox changes. -/
theorem ParkStep.cover (hpc : new.pc = old.pc)
    (hseen : new.lastSeen = old.lastSeen)
    (hphase : new.mailbox.seenPhase = old.mailbox.seenPhase) :
    ParkStep word old new := by
  have hsame : new.Unprocessed ↔ old.Unprocessed := by
    rw [Slot.Unprocessed, hseen, hphase]
    rfl
  refine ⟨fun token hwait hnew => ⟨hpc ▸ hwait, hsame.1 hnew⟩,
    fun hasleep hnew => ⟨hsame.1 hnew, .inl (hpc ▸ hasleep)⟩⟩

end Slots

/-! ## What one step of the pool does -/

section Steps

variable {participants : ℕ} {before after : State} {action : Action}
variable {event : Option Event} {thread : ℕ}

/-- A call behind its bump was there before, or it bumps the word now. -/
def CallStep (before after : State) (thread : ℕ) : Prop :=
  (after.producer thread).behindBump = true →
    ((before.producer thread).behindBump = true ∧
        ∀ slot, (after.producer thread).awaits slot →
          (before.producer thread).awaits slot) ∨
      ∃ dispatch word, before.producer thread = .storeWord dispatch word ∧
        after.producer thread = .wake dispatch ∧
        after.control.futexWord = word + 1

theorem CallStep.ofSame
    (hsame : after.producer thread = before.producer thread) :
    CallStep before after thread := by
  intro hbump
  rw [hsame] at hbump ⊢
  exact .inl ⟨hbump, fun _ => id⟩

/-- The call goes to a place that is not behind a bump. -/
theorem CallStep.ofOutside {pc : ProducerPc}
    (hafter : after.producer thread = pc) (hbump : pc.behindBump = false) :
    CallStep before after thread := by
  simp [CallStep, hafter, hbump]

/-- The call goes on and awaits no more slots. -/
theorem CallStep.next {old pc : ProducerPc}
    (hbefore : before.producer thread = old)
    (hafter : after.producer thread = pc)
    (hbump : pc.behindBump = old.behindBump)
    (hawaits : ∀ slot, pc.awaits slot → old.awaits slot) :
    CallStep before after thread := by
  intro hbehind
  rw [hafter, hbump] at hbehind
  rw [hbefore, hafter]
  exact .inl ⟨hbehind, hawaits⟩

theorem behindLease_behindBump (request : Request) (gateSkipped : Bool) :
    (behindLease request gateSkipped).behindBump = false := by
  unfold behindLease
  split <;> rfl

theorem behindDrain_behindBump (site : DrainSite) :
    (behindDrain site).behindBump = false := by
  cases site <;> rfl

theorem behindPublish_behindBump (participants : ℕ) (dispatch : Dispatch) :
    (behindPublish participants dispatch).behindBump = false := by
  unfold behindPublish
  repeat' split
  all_goals rfl

theorem stepProducer_call
    (hstep : stepProducer participants before thread = some (after, event)) :
    CallStep before after thread := by
  have hself : ∀ (state : State) (pc : ProducerPc),
      (state.setProducer thread pc).producer thread = pc :=
    fun _ _ => Function.update_self _ _ _
  cases hpc : before.producer thread <;>
    simp only [stepProducer, hpc, reduceCtorEq] at hstep
  case drain site lowLatencyActive =>
    repeat' split at hstep
    all_goals simp only [Option.some.injEq, Prod.mk.injEq, reduceCtorEq] at hstep
    all_goals obtain ⟨rfl, rfl⟩ := hstep
    · exact .ofOutside (hself _ _) rfl
    · exact .ofOutside (hself _ _) (behindDrain_behindBump site)
  case lease request =>
    split at hstep
    all_goals obtain ⟨rfl, rfl⟩ := by simpa using hstep
    · exact .ofOutside (hself _ _) (behindLease_behindBump _ _)
    · exact .ofOutside (hself _ _) rfl
  case lock request =>
    split at hstep
    next => simp at hstep
    next =>
      obtain ⟨rfl, rfl⟩ := by simpa using hstep
      exact .ofOutside (hself _ _) (behindLease_behindBump _ _)
  case publish dispatch slot =>
    split at hstep
    all_goals obtain ⟨rfl, rfl⟩ := by simpa using hstep
    · exact .ofOutside (hself _ _) rfl
    · exact .ofOutside (hself _ _) (behindPublish_behindBump _ _)
  case probe dispatch pendingProbe =>
    split at hstep
    next =>
      obtain ⟨rfl, rfl⟩ := by simpa using hstep
      exact .ofOutside (hself _ _) rfl
    next => simp at hstep
  case storeWord dispatch word =>
    obtain ⟨rfl, rfl⟩ := by simpa using hstep
    exact fun _ => .inr ⟨dispatch, word, hpc, hself _ _, rfl⟩
  case body dispatch elided =>
    obtain ⟨rfl, rfl⟩ := by simpa using hstep
    exact .next hpc (hself _ _) (by cases elided <;> rfl) fun _ _ => trivial
  case join dispatch elided slot =>
    split at hstep
    next =>
      split at hstep
      next =>
        obtain ⟨rfl, rfl⟩ := by simpa using hstep
        exact .next hpc (hself _ _) (by cases elided <;> rfl)
          fun _ hawaits => Nat.le_of_succ_le hawaits
      next => simp at hstep
    next =>
      obtain ⟨rfl, rfl⟩ := by simpa using hstep
      exact .ofOutside (hself _ _) rfl
  case coverBody dispatch elided slot =>
    obtain ⟨rfl, rfl⟩ := by simpa using hstep
    exact .next hpc (hself _ _) (by cases elided <;> rfl) fun _ => id
  case coverStamp dispatch elided slot =>
    split at hstep
    all_goals obtain ⟨rfl, rfl⟩ := by simpa using hstep
    · refine .next hpc (hself _ _) ?_ fun other hawaits => ?_
      · split <;> cases elided <;> rfl
      · split at hawaits
        · exact Nat.le_of_succ_le hawaits
        · exact Nat.le_of_lt hawaits
    · exact .next hpc (hself _ _) (by cases elided <;> rfl)
        fun _ hawaits => Nat.le_of_succ_le hawaits
  case coverMark dispatch elided slot =>
    obtain ⟨rfl, rfl⟩ := by simpa using hstep
    exact .next hpc (hself _ _) (by cases elided <;> rfl)
      fun _ hawaits => Nat.lt_of_succ_le hawaits
  all_goals
    obtain ⟨rfl, rfl⟩ := by simpa using hstep
    exact .ofOutside (hself _ _) rfl

theorem step_call
    (hstep : (pool participants).step before action = some (after, event))
    (thread : ℕ) : CallStep before after thread := by
  by_cases hcaller : action.caller = some thread
  case neg => exact .ofSame (step_other hstep hcaller)
  have hself : ∀ (state : State) (pc : ProducerPc),
      (state.setProducer thread pc).producer thread = pc :=
    fun _ _ => Function.update_self _ _ _
  cases action <;> simp only [Action.caller, Option.some.injEq,
    reduceCtorEq] at hcaller
  all_goals
    subst hcaller
    simp only [pool] at hstep
  case advance => exact stepProducer_call hstep
  case dispatch =>
    split at hstep
    next =>
      obtain ⟨rfl, rfl⟩ := by simpa using hstep
      exact .ofOutside (hself _ _) (by split <;> rfl)
    next => simp at hstep
  case collect =>
    split at hstep
    next =>
      split at hstep
      next =>
        obtain ⟨rfl, rfl⟩ := by simpa using hstep
        exact .ofSame rfl
      next => simp at hstep
    next => simp at hstep
  case probeDone =>
    split at hstep
    next =>
      split at hstep
      next =>
        obtain ⟨rfl, rfl⟩ := by simpa using hstep
        exact .ofOutside (hself _ _) rfl
      next => simp at hstep
    next => simp at hstep
  case giveUp =>
    split at hstep
    next =>
      obtain ⟨rfl, rfl⟩ := by simpa using hstep
      exact .ofOutside (hself _ _) rfl
    next => simp at hstep
  case cover =>
    split at hstep
    next dispatch elided slot hpc =>
      split at hstep
      next =>
        obtain ⟨rfl, rfl⟩ := by simpa using hstep
        exact .next hpc (hself _ _) (by cases elided <;> rfl) fun _ => id
      next => simp at hstep
    next => simp at hstep
  case wakeTwo caller released =>
    split at hstep
    next next hnext =>
      split at hstep
      next =>
        obtain ⟨rfl, rfl⟩ := by simpa using hstep
        cases hpc : before.producer caller <;>
          simp only [behindWake, hpc, Option.some.injEq, reduceCtorEq] at hnext
        all_goals subst hnext
        · exact .ofOutside (hself _ _) rfl
        · exact .next hpc (hself _ _) rfl fun _ => id
      next => simp at hstep
    next => simp at hstep

theorem Propagates.advance {control : Control} {old new : Slot}
    (hwide : 2 < participants) (hrunning : old.mailbox.shutdown = false)
    (hold : Propagates old)
    (hstep : old.advance control participants = some new) :
    Propagates new := by
  rcases hold with hchain | ⟨hpc, hnew⟩
  · cases hpc : old.pc <;> simp [hpc, chaining] at hchain
    simp [Slot.advance, hpc] at hstep
  · simp only [Slot.advance, hpc] at hstep
    rw [if_pos ⟨hnew, hrunning, hwide⟩] at hstep
    obtain rfl := by simpa using hstep
    exact .inl rfl

theorem Propagates.rouse {slot : Slot} (hold : Propagates slot) :
    Propagates slot.rouse := by
  have hawake : slot.pc ≠ .asleep := by
    intro hpc
    simp [Propagates, hpc, chaining] at hold
  rwa [Slot.rouse, if_neg hawake]

theorem rouse_awake (slot : Slot) : slot.rouse.pc ≠ .asleep := by
  rw [Slot.rouse]
  split
  · simp
  · assumption

/-- A released worker with an unprocessed phase passes the wake on. -/
theorem propagates_rouse {slot : Slot} (hpc : slot.pc = .asleep)
    (hnew : slot.Unprocessed) : Propagates slot.rouse := by
  rw [Slot.rouse, if_pos hpc]
  exact .inr ⟨rfl, MailboxWord.chainPhase_ne_of_seenPhase_ne hnew⟩

/-- Behind a bump nobody is put to sleep with an unprocessed phase, and the
wake of a neglected worker is on its way. -/
structure ChainInv (participants : ℕ) (state : State) : Prop where
  late : ∀ thread slot, (state.producer thread).behindBump = true →
    (state.producer thread).awaits slot →
    (state.slots slot).pc = .wait state.control.futexWord →
    ¬ (state.slots slot).Unprocessed
  coming : ∀ slot, state.Neglected participants slot →
    ∃ waker, state.wakes participants waker

variable {trace : List Event}

/-- What one step owes to the invariant, wakes on their way apart. -/
theorem ChainInv.keep (hinv : ChainInv participants before)
    (htoken : TokenInv trace before)
    (hword : before.control.futexWord ≤ after.control.futexWord)
    (hslots : ∀ slot, ParkStep before.control.futexWord (before.slots slot)
      (after.slots slot))
    (hcalls : ∀ thread, CallStep before after thread)
    (hcoming : ∀ slot, before.Neglected participants slot →
      after.Neglected participants slot →
      ∃ waker, after.wakes participants waker) :
    ChainInv participants after := by
  refine ⟨fun thread slot hbump hawaits hpc hnew => ?_,
    fun slot hneglected => ?_⟩
  · obtain ⟨hwait, hold⟩ := (hslots slot).waits _ hpc hnew
    have hle := (htoken.token slot after.control.futexWord
      (by rw [hwait]; rfl)).1
    rcases hcalls thread hbump with ⟨hbefore, hsame⟩ |
      ⟨dispatch, word, hstore, -, hbumped⟩
    · refine hinv.late thread slot hbefore (hsame slot hawaits) ?_ hold
      rw [hwait, hle.antisymm hword]
    · have hheld := (htoken.held (.thread thread) word
        (by rw [State.heldWord, hstore]; rfl)).1
      omega
  · have hafter := hneglected
    obtain ⟨⟨thread, hbump, hawaits⟩, hrange, hpc, hnew⟩ := hneglected
    rcases hcalls thread hbump with ⟨hbefore, hsame⟩ |
      ⟨dispatch, word, -, hwake, -⟩
    · obtain ⟨hold, hasleep | hwait⟩ := (hslots slot).sleeps hpc hnew
      · exact hcoming slot
          ⟨⟨thread, hbefore, hsame slot hawaits⟩, hrange, hasleep, hold⟩ hafter
      · exact absurd hold
          (hinv.late thread slot hbefore (hsame slot hawaits) hwait)
    · exact ⟨.thread thread, by rw [State.wakes, hwake]; rfl⟩

/-- A wake of two: whoever is released with an unprocessed phase passes the
wake on. -/
theorem ChainInv.wakeOfTwo (hinv : ChainInv participants before)
    (htoken : TokenInv trace before)
    (huseful : WakeUseful participants before action) {released : List ℕ}
    (haction : action.wakeOfTwo = some released)
    (hreleases : Releases participants 2 before.slots released)
    (hword : before.control.futexWord ≤ after.control.futexWord)
    (hslots : ∀ slot, ParkStep before.control.futexWord (before.slots slot)
      (after.slots slot))
    (hcalls : ∀ thread, CallStep before after thread)
    (hreleased : ∀ slot ∈ released,
      after.slots slot = (before.slots slot).rouse) :
    ChainInv participants after := by
  refine hinv.keep htoken hword hslots hcalls fun slot hbefore hafter => ?_
  have hleft : slot ∉ released := by
    intro hmem
    have hasleep := hafter.2.2.1
    rw [hreleased slot hmem] at hasleep
    exact rouse_awake _ hasleep
  obtain ⟨index, hmem, hrange, hnew⟩ :=
    huseful released haction slot hleft hbefore
  refine ⟨.worker index, hrange, ?_⟩
  rw [hreleased index hmem]
  exact propagates_rouse (hreleases.2.1 index hmem) hnew

end Steps

end Citor.ParkingPool
