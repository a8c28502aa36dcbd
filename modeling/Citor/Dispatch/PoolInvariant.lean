import Citor.Dispatch.PoolSteps
import Citor.Dispatch.SlotSoundness

/-!
# What holds along every run whose dispatch sections keep apart

Where one thread at a time is between its lease and the end of its join, that
thread finds every slot settled before it publishes, and the phase it
published stays in a slot until its join has passed it.
-/

namespace Citor.ParkingPool

open Citor.Interleaving
open Citor.WorkerLoop
open WorkerSlots (MailboxWord)

/-! ## The dispatch section -/

/-- The dispatch a call works on. -/
def ProducerPc.dispatching : ProducerPc → Option Dispatch
  | .drain (.publication dispatch) _ | .drainStore (.publication dispatch) _ _
  | .drainWake (.publication dispatch) _ | .storeGeneration dispatch
  | .publish dispatch _ | .probe dispatch _ | .loadWord dispatch
  | .storeWord dispatch _ | .wake dispatch | .body dispatch _
  | .join dispatch _ _ | .coverBody dispatch _ _ | .coverStamp dispatch _ _
  | .coverMark dispatch _ _ => some dispatch
  | _ => none

/-- Between the lease and the end of the join. -/
def ProducerPc.inSection (pc : ProducerPc) : Bool :=
  match pc with
  | .reprobe _ _ | .loadGeneration _ _ _ => true
  | _ => pc.dispatching.isSome

/-- The slots a call has published to and not joined yet. -/
def ProducerPc.awaits : ProducerPc → ℕ → Prop
  | .publish _ next, slot => slot < next
  | .probe _ _, _ | .loadWord _, _ | .storeWord _ _, _ | .wake _, _
  | .body _ _, _ => True
  | .join _ _ next, slot | .coverBody _ _ next, slot
  | .coverStamp _ _ next, slot => next ≤ slot
  | .coverMark _ _ next, slot => next < slot
  | _, _ => False

/-- The slot a call publishes to or joins next. -/
def ProducerPc.nextSlot : ProducerPc → Option ℕ
  | .publish _ next | .join _ _ next | .coverBody _ _ next
  | .coverStamp _ _ next | .coverMark _ _ next => some next
  | _ => none

/-- Whether a thread's next step takes it into the dispatch section. -/
def State.enters (state : State) (thread : ℕ) : Prop :=
  match state.producer thread with
  | .lease _ =>
      state.control.hotSpinDepth ≠ 0 ∧ state.lowLatencyOwner thread = true
  | .lock _ => state.dispatchMutex = false
  | _ => False

/-- A thread enters the dispatch section only while nobody else is in it. -/
def SectionsApart (state : State) : Action → Prop
  | .advance thread => state.enters thread →
      ∀ other, (state.producer other).inSection = false
  | _ => True

theorem ProducerPc.inSection_of_dispatching {pc : ProducerPc}
    {dispatch : Dispatch} (hdispatch : pc.dispatching = some dispatch) :
    pc.inSection = true := by
  unfold ProducerPc.inSection
  split
  · rfl
  · rfl
  · simp [hdispatch]

theorem ProducerPc.inSection_of_awaits {pc : ProducerPc} {slot : ℕ}
    (hawaits : pc.awaits slot) : pc.inSection = true := by
  cases pc <;> first | rfl | exact absurd hawaits id

/-- Where thread 0 alone dispatches, it finds nobody in the section. -/
theorem enters_apart {state : State} (honly : state.OnlyFirstCalls)
    (henters : state.enters 0) (other : ℕ) :
    (state.producer other).inSection = false := by
  by_cases hzero : other = 0
  · subst hzero
    unfold State.enters at henters
    split at henters
    next hpc => rw [hpc]; rfl
    next hpc => rw [hpc]; rfl
    next => exact henters.elim
  · rw [honly other hzero]
    rfl

/-! ## The invariant -/

/-- What holds of a call, given the slots. -/
structure CallSound (participants : ℕ) (slots : ℕ → Slot) (pc : ProducerPc) :
    Prop where
  generation : ∀ dispatch, pc.dispatching = some dispatch →
    dispatch.generation ≠ 0
  covering : ∀ dispatch elided slot, pc = .coverBody dispatch elided slot ∨
    pc = .coverStamp dispatch elided slot → mayCover participants dispatch = true
  positive : ∀ next, pc.nextSlot = some next → 1 ≤ next
  current : ∀ dispatch, pc.dispatching = some dispatch →
    ∀ slot, 1 ≤ slot → slot < participants → pc.awaits slot →
      (slots slot).mailbox.seenPhase = dispatch.published.seenPhase

structure PoolInv (participants : ℕ) (state : State) : Prop where
  slots : ∀ slot, SlotSound (state.slots slot)
  calls : ∀ thread, CallSound participants state.slots (state.producer thread)
  solo : ∀ left right, (state.producer left).inSection = true →
    (state.producer right).inSection = true → left = right
  settled : ∀ slot, 1 ≤ slot → slot < participants →
    (state.slots slot).Settled ∨ ∃ thread, (state.producer thread).awaits slot

variable {participants : ℕ} {before after : State} {action : Action}
variable {event : Option Event} {thread : ℕ} {pc : ProducerPc}

theorem poolInv_start (participants : ℕ) : PoolInv participants start where
  slots := fun _ => slotSound_fresh
  calls := fun _ => by
    constructor <;> simp [start, ProducerPc.dispatching, ProducerPc.nextSlot]
  solo := by simp [start, ProducerPc.inSection, ProducerPc.dispatching]
  settled := fun _ _ _ => .inl (.inr (.inr rfl))

theorem CallSound.evolve {slots moved : ℕ → Slot}
    (hcall : CallSound participants slots pc)
    (hevolves : ∀ slot, (moved slot).mailbox.seenPhase =
      (slots slot).mailbox.seenPhase) :
    CallSound participants moved pc where
  generation := hcall.generation
  covering := hcall.covering
  positive := hcall.positive
  current := fun dispatch hdispatch slot hpos hslot hawaits =>
    (hevolves slot).trans
      (hcall.current dispatch hdispatch slot hpos hslot hawaits)

/-- A call that awaits nobody. -/
theorem CallSound.idle {slots : ℕ → Slot}
    (hgeneration : ∀ dispatch, pc.dispatching = some dispatch →
      dispatch.generation ≠ 0)
    (hpositive : ∀ next, pc.nextSlot = some next → 1 ≤ next)
    (hawaits : ∀ slot, ¬ pc.awaits slot) : CallSound participants slots pc where
  generation := hgeneration
  covering := by
    rintro dispatch elided slot (rfl | rfl) <;>
      exact absurd le_rfl (hawaits slot)
  positive := hpositive
  current := fun _ _ slot _ _ hslot => absurd hslot (hawaits slot)

/-- A call goes on with the same dispatch and awaits no more slots. -/
theorem CallSound.next {slots : ℕ → Slot} {old : ProducerPc}
    (hcall : CallSound participants slots old)
    (hdispatch : pc.dispatching = old.dispatching)
    (hawaits : ∀ slot, pc.awaits slot → slot < participants →
      old.awaits slot)
    (hcovers : ∀ dispatch elided slot, pc = .coverBody dispatch elided slot ∨
      pc = .coverStamp dispatch elided slot →
      mayCover participants dispatch = true)
    (hpositive : ∀ next, pc.nextSlot = some next → 1 ≤ next) :
    CallSound participants slots pc where
  generation := by
    rw [hdispatch]
    exact hcall.generation
  covering := hcovers
  positive := hpositive
  current := by
    rw [hdispatch]
    exact fun dispatch hold slot hpos hslot hnew =>
      hcall.current dispatch hold slot hpos hslot (hawaits slot hnew hslot)

/-- Nobody's call moves. -/
theorem PoolInv.evolve (hinv : PoolInv participants before)
    (hproducer : after.producer = before.producer)
    (hevolves : ∀ slot, Evolves (before.slots slot) (after.slots slot)) :
    PoolInv participants after where
  slots := fun slot => (hevolves slot).sound
  calls := by
    rw [hproducer]
    exact fun thread =>
      (hinv.calls thread).evolve fun slot => (hevolves slot).phase
  solo := by
    rw [hproducer]
    exact hinv.solo
  settled := by
    rw [hproducer]
    exact fun slot hpos hslot => (hinv.settled slot hpos hslot).imp_left
      (hevolves slot).settled

/-- One call moves. -/
theorem PoolInv.moveCall (hinv : PoolInv participants before)
    (hproducer : after.producer = Function.update before.producer thread pc)
    (hevolves : ∀ slot, Evolves (before.slots slot) (after.slots slot))
    (hcall : CallSound participants before.slots pc)
    (hsection : pc.inSection = true →
      (before.producer thread).inSection = true ∨
        ∀ other, (before.producer other).inSection = false)
    (hsettled : ∀ slot, 1 ≤ slot → slot < participants →
      (before.producer thread).awaits slot →
      pc.awaits slot ∨ (before.slots slot).Settled) :
    PoolInv participants after := by
  have hothers : ∀ other, other ≠ thread →
      after.producer other = before.producer other := by
    intro other hother
    rw [hproducer, Function.update_of_ne hother]
  have hmoved : after.producer thread = pc := by
    rw [hproducer, Function.update_self]
  refine ⟨fun slot => (hevolves slot).sound, fun other => ?_, ?_, ?_⟩
  · refine CallSound.evolve ?_ fun slot => (hevolves slot).phase
    by_cases hsame : other = thread
    · rw [hsame, hmoved]
      exact hcall
    · rw [hothers other hsame]
      exact hinv.calls other
  · have halone : ∀ other, other ≠ thread → pc.inSection = true →
        (after.producer other).inSection = false := by
      intro other hother hinside
      rw [hothers other hother]
      rcases hsection hinside with hold | hnobody
      · by_contra hboth
        exact hother (hinv.solo other thread (by simpa using hboth) hold)
      · exact hnobody other
    intro left right hleft hright
    by_cases hl : left = thread
    · by_cases hr : right = thread
      · rw [hl, hr]
      · rw [hl, hmoved] at hleft
        simp [halone right hr hleft] at hright
    · by_cases hr : right = thread
      · rw [hr, hmoved] at hright
        simp [halone left hl hright] at hleft
      · rw [hothers left hl] at hleft
        rw [hothers right hr] at hright
        exact hinv.solo left right hleft hright
  · intro slot hpos hslot
    rcases hinv.settled slot hpos hslot with hdone | ⟨waiter, hwaits⟩
    · exact .inl ((hevolves slot).settled hdone)
    · by_cases hsame : waiter = thread
      · rw [hsame] at hwaits
        rcases hsettled slot hpos hslot hwaits with hstill | hdone
        · exact .inr ⟨thread, by rwa [hmoved]⟩
        · exact .inl ((hevolves slot).settled hdone)
      · exact .inr ⟨waiter, by rwa [hothers waiter hsame]⟩

/-- The slot a thread is about to publish to is settled. -/
theorem PoolInv.settled_of_publish (hinv : PoolInv participants before)
    {dispatch : Dispatch} {slot : ℕ}
    (hpc : before.producer thread = .publish dispatch slot)
    (hpos : 1 ≤ slot) (hslot : slot < participants) :
    (before.slots slot).Settled := by
  rcases hinv.settled slot hpos hslot with hdone | ⟨waiter, hwaits⟩
  · exact hdone
  · have hsame := hinv.solo waiter thread
      (ProducerPc.inSection_of_awaits hwaits) (by rw [hpc]; rfl)
    rw [hsame, hpc] at hwaits
    exact absurd hwaits (lt_irrefl slot)

/-! ## Steps of a call -/

theorem awaits_behindPublish {dispatch : Dispatch} {slot : ℕ} :
    (behindPublish participants dispatch).awaits slot := by
  unfold behindPublish
  repeat' split
  all_goals trivial

theorem dispatching_behindPublish (participants : ℕ) (dispatch : Dispatch) :
    (behindPublish participants dispatch).dispatching = some dispatch := by
  unfold behindPublish
  repeat' split
  all_goals rfl

/-- No place that covers a rank. -/
def ProducerPc.covers : ProducerPc → Bool
  | .coverBody _ _ _ | .coverStamp _ _ _ => true
  | _ => false

theorem not_covering (hcovers : pc.covers = false) :
    ∀ dispatch elided slot, pc = .coverBody dispatch elided slot ∨
      pc = .coverStamp dispatch elided slot →
      mayCover participants dispatch = true := by
  rintro dispatch elided slot (rfl | rfl) <;> simp [ProducerPc.covers] at hcovers

theorem published_coldCollapseDispatch {dispatch : Dispatch}
    (hcover : mayCover participants dispatch = true) :
    dispatch.published.coldCollapseDispatch = true := by
  simp only [mayCover, Bool.and_eq_true] at hcover
  simpa [MailboxWord.coldCollapseDispatch, Dispatch.published,
    WorkerSlots.Dispatch.publishedWith] using
    ⟨hcover.1.2, by simpa using hcover.2⟩

/-- A publication to one slot. -/
theorem PoolInv.publish (hinv : PoolInv participants before)
    {dispatch : Dispatch} {slot : ℕ} (hslot : slot < participants)
    (hpc : before.producer thread = .publish dispatch slot) :
    PoolInv participants ((before.setSlot slot { before.slots slot with
        mailbox := dispatch.published }).setProducer thread
      (.publish dispatch (slot + 1))) := by
  have hcall := hinv.calls thread
  rw [hpc] at hcall
  have hgeneration := hcall.generation dispatch rfl
  have hpos := hcall.positive slot rfl
  have hinside : (before.producer thread).inSection = true := by
    rw [hpc]
    rfl
  refine ⟨fun index => ?_, fun other => ?_, ?_, ?_⟩
  · by_cases hsame : index = slot
    · subst hsame
      simpa [State.setSlot, State.setProducer] using
        (hinv.slots index).publish (hinv.settled_of_publish hpc hpos hslot)
          hgeneration rfl rfl
    · simpa [State.setSlot, State.setProducer, hsame] using hinv.slots index
  · by_cases hother : other = thread
    · subst hother
      simp only [State.setProducer, Function.update_self]
      refine ⟨hcall.generation, not_covering rfl,
        fun next hnext => ?_, ?_⟩
      · obtain rfl : slot + 1 = next := Option.some.inj hnext
        omega
      intro working hworking index hfirst hlast hawaits
      obtain rfl : dispatch = working := Option.some.inj hworking
      simp only [State.setSlot]
      by_cases hsame : index = slot
      · subst hsame
        simp
      · rw [Function.update_of_ne hsame]
        refine hcall.current dispatch rfl index hfirst hlast ?_
        exact Nat.lt_of_le_of_ne (Nat.lt_succ_iff.1 hawaits) hsame
    · simp only [State.setProducer, Function.update_of_ne hother]
      refine ⟨(hinv.calls other).generation, (hinv.calls other).covering,
        (hinv.calls other).positive, ?_⟩
      intro working _ index _ _ hawaits
      exact absurd (hinv.solo other thread
        (ProducerPc.inSection_of_awaits hawaits) hinside) hother
  · intro left right hleft hright
    have hkept : ∀ other, (Function.update before.producer thread
        (.publish dispatch (slot + 1)) other).inSection =
        (before.producer other).inSection := by
      intro other
      by_cases hother : other = thread
      · subst hother
        rw [Function.update_self, hinside]
        rfl
      · rw [Function.update_of_ne hother]
    exact hinv.solo left right ((hkept left).symm.trans hleft)
      ((hkept right).symm.trans hright)
  · intro index hfirst hlast
    by_cases hsame : index = slot
    · right
      refine ⟨thread, ?_⟩
      simp [State.setProducer, ProducerPc.awaits, hsame]
    · simp only [State.setProducer, State.setSlot, Function.update_of_ne hsame]
      refine (hinv.settled index hfirst hlast).imp_right ?_
      rintro ⟨waiter, hwaits⟩
      refine ⟨waiter, ?_⟩
      by_cases hwaiter : waiter = thread
      · subst hwaiter
        rw [hpc] at hwaits
        rw [Function.update_self]
        exact Nat.lt_succ_of_lt hwaits
      · rwa [Function.update_of_ne hwaiter]

/-- The producer stamps a rank it has run itself. -/
theorem PoolInv.coverStamp (hinv : PoolInv participants before)
    {dispatch : Dispatch} {elided : Bool} {slot : ℕ}
    (hpc : before.producer thread = .coverStamp dispatch elided slot)
    (hmailbox : (before.slots slot).mailbox = dispatch.published)
    (hnext : pc = .join dispatch elided (slot + 1) ∨
      pc = .coverMark dispatch elided slot) :
    PoolInv participants ((before.setSlot slot { before.slots slot with
        mailbox := dispatch.doneSentinel }).setProducer thread pc) := by
  have hcall := hinv.calls thread
  rw [hpc] at hcall
  have hcold := published_coldCollapseDispatch
    (hcall.covering dispatch elided slot (.inr rfl))
  have hinside : (before.producer thread).inSection = true := by
    rw [hpc]
    rfl
  have hstays : pc.inSection = true := by
    rcases hnext with rfl | rfl <;> rfl
  have hawaits : ∀ index, pc.awaits index → slot < index := by
    rcases hnext with rfl | rfl <;>
      simp [ProducerPc.awaits]
  refine ⟨fun index => ?_, fun other => ?_, ?_, ?_⟩
  · by_cases hsame : index = slot
    · subst hsame
      have hcover := (hinv.slots index).cover (by rw [hmailbox, hcold])
        (by rw [hmailbox]; exact hcall.generation dispatch rfl)
      rw [hmailbox] at hcover
      simpa [State.setSlot, State.setProducer, Dispatch.doneSentinel] using
        hcover
    · simpa [State.setSlot, State.setProducer, hsame] using hinv.slots index
  · have hcurrent : ∀ index, index ≠ slot →
        (Function.update before.slots slot { before.slots slot with
          mailbox := dispatch.doneSentinel } index) = before.slots index :=
      fun index hne => Function.update_of_ne hne _ _
    by_cases hother : other = thread
    · subst hother
      simp only [State.setProducer, State.setSlot, Function.update_self]
      have hdispatch : pc.dispatching = some dispatch := by
        rcases hnext with rfl | rfl <;> rfl
      refine ⟨?_, ?_, fun next hnext' => ?_, ?_⟩
      · rw [hdispatch]
        exact hcall.generation
      · rcases hnext with rfl | rfl <;> exact not_covering rfl
      · have hpos := hcall.positive slot rfl
        rcases hnext with rfl | rfl <;>
          · have := Option.some.inj hnext'
            omega
      · intro working hworking index hfirst hlast hwaits
        obtain rfl : dispatch = working :=
          Option.some.inj (hdispatch.symm.trans hworking)
        have hlater := hawaits index hwaits
        rw [hcurrent index hlater.ne']
        exact hcall.current dispatch rfl index hfirst hlast hlater.le
    · simp only [State.setProducer, Function.update_of_ne hother]
      refine ⟨(hinv.calls other).generation, (hinv.calls other).covering,
        (hinv.calls other).positive, ?_⟩
      intro working _ index _ _ hwaits
      exact absurd (hinv.solo other thread
        (ProducerPc.inSection_of_awaits hwaits) hinside) hother
  · intro left right hleft hright
    have hkept : ∀ other, (Function.update before.producer thread pc
        other).inSection = (before.producer other).inSection := by
      intro other
      by_cases hother : other = thread
      · subst hother
        rw [Function.update_self, hinside, hstays]
      · rw [Function.update_of_ne hother]
    exact hinv.solo left right ((hkept left).symm.trans hleft)
      ((hkept right).symm.trans hright)
  · intro index hfirst hlast
    by_cases hsame : index = slot
    · left
      subst hsame
      exact .inr (.inl (by
        simp [State.setSlot, State.setProducer, Dispatch.doneSentinel]))
    · simp only [State.setProducer, State.setSlot, Function.update_of_ne hsame]
      refine (hinv.settled index hfirst hlast).imp_right ?_
      rintro ⟨waiter, hwaits⟩
      refine ⟨waiter, ?_⟩
      by_cases hwaiter : waiter = thread
      · subst hwaiter
        rw [hpc] at hwaits
        have hlater : slot < index :=
          Nat.lt_of_le_of_ne hwaits (Ne.symm hsame)
        rw [Function.update_self]
        rcases hnext with rfl | rfl
        · exact hlater
        · exact hlater
      · rwa [Function.update_of_ne hwaiter]

/-- A masked mailbox that shows the done sentinel is stamped. -/
theorem done_of_withoutAck {mailbox : Mailbox} {dispatch : Dispatch}
    (hdone : mailbox.withoutAck = dispatch.doneSentinel) :
    mailbox.done = true :=
  (MailboxWord.of_withoutAck hdone).1

/-- A call moves before it has published anything. -/
theorem PoolInv.prepare (hinv : PoolInv participants before)
    (hproducer : after.producer = before.producer)
    (hslots : after.slots = before.slots)
    (hidle : ∀ slot, ¬ (before.producer thread).awaits slot)
    (hgeneration : ∀ dispatch, pc.dispatching = some dispatch →
      dispatch.generation ≠ 0)
    (hpositive : ∀ next, pc.nextSlot = some next → 1 ≤ next)
    (hawaits : ∀ slot, 1 ≤ slot → ¬ pc.awaits slot)
    (hsection : pc.inSection = true →
      (before.producer thread).inSection = true ∨
        ∀ other, (before.producer other).inSection = false) :
    PoolInv participants (after.setProducer thread pc) := by
  refine hinv.moveCall (by rw [State.setProducer, hproducer])
    (fun slot => ?_) ⟨hgeneration, ?_, hpositive, ?_⟩ hsection
    fun slot _ _ hwaits => absurd hwaits (hidle slot)
  · rw [State.setProducer, hslots]
    exact (hinv.slots slot).refl
  · rintro dispatch elided slot (rfl | rfl) <;>
      exact absurd (le_max_left slot 1)
        (hawaits (max slot 1) (le_max_right _ _))
  · exact fun dispatch _ slot hpos _ hwaits =>
      absurd hwaits (hawaits slot hpos)

/-- A call moves on with the dispatch it has published. -/
theorem PoolInv.proceed (hinv : PoolInv participants before)
    (hproducer : after.producer = before.producer)
    (hslots : ∀ slot, Evolves (before.slots slot) (after.slots slot))
    {dispatch : Dispatch}
    (hold : (before.producer thread).dispatching = some dispatch)
    (hdispatch : pc.dispatching = some dispatch)
    (hawaits : ∀ slot, pc.awaits slot → slot < participants →
      (before.producer thread).awaits slot)
    (hcovers : pc.covers = false ∨ mayCover participants dispatch = true)
    (hpositive : ∀ next, pc.nextSlot = some next → 1 ≤ next)
    (hsettled : ∀ slot, 1 ≤ slot → slot < participants →
      (before.producer thread).awaits slot →
      pc.awaits slot ∨ (before.slots slot).Settled) :
    PoolInv participants (after.setProducer thread pc) := by
  refine hinv.moveCall (by rw [State.setProducer, hproducer]) hslots
    ((hinv.calls thread).next (hdispatch.trans hold.symm) hawaits ?_ hpositive)
    (fun _ => .inl (ProducerPc.inSection_of_dispatching hold)) hsettled
  rcases hcovers with hnone | hcover
  · exact not_covering hnone
  · rintro working elided slot (rfl | rfl) <;>
      · obtain rfl : working = dispatch := Option.some.inj hdispatch
        exact hcover

theorem behindLease_dispatching (request : Request) (gateSkipped : Bool) :
    (behindLease request gateSkipped).dispatching = none := by
  unfold behindLease
  split <;> rfl

theorem behindLease_nextSlot (request : Request) (gateSkipped : Bool) :
    (behindLease request gateSkipped).nextSlot = none := by
  unfold behindLease
  split <;> rfl

theorem behindLease_awaits (request : Request) (gateSkipped : Bool)
    (slot : ℕ) : ¬ (behindLease request gateSkipped).awaits slot := by
  unfold behindLease
  split <;> exact id

theorem behindPublish_nextSlot (participants : ℕ) (dispatch : Dispatch) :
    (behindPublish participants dispatch).nextSlot = none := by
  unfold behindPublish
  repeat' split
  all_goals rfl

theorem behindPublish_covers (participants : ℕ) (dispatch : Dispatch) :
    (behindPublish participants dispatch).covers = false := by
  unfold behindPublish
  repeat' split
  all_goals rfl

theorem poolInv_stepProducer (hinv : PoolInv participants before)
    (hapart : SectionsApart before (.advance thread))
    (hstep : stepProducer participants before thread = some (after, event)) :
    PoolInv participants after := by
  have hcall := hinv.calls thread
  have hsame : ∀ slot, Evolves (before.slots slot) (before.slots slot) :=
    fun slot => (hinv.slots slot).refl
  cases hpc : before.producer thread <;>
    simp only [stepProducer, hpc, reduceCtorEq] at hstep
  case drain site lowLatencyActive =>
    have hidle : ∀ slot, ¬ (before.producer thread).awaits slot := by
      simp [hpc, ProducerPc.awaits]
    rw [hpc] at hcall
    repeat' split at hstep
    all_goals simp only [Option.some.injEq, Prod.mk.injEq, reduceCtorEq] at hstep
    all_goals obtain ⟨rfl, rfl⟩ := hstep
    all_goals cases site
    · exact hinv.prepare rfl rfl hidle hcall.generation
        (by simp [ProducerPc.nextSlot]) (fun _ _ => id)
        (by simp [ProducerPc.inSection, ProducerPc.dispatching])
    · exact hinv.prepare rfl rfl hidle hcall.generation
        (by simp [ProducerPc.nextSlot]) (fun _ _ => id)
        (fun _ => .inl (by rw [hpc]; rfl))
    · exact hinv.prepare rfl rfl hidle hcall.generation
        (by simp [behindDrain, ProducerPc.nextSlot]) (fun _ _ => id)
        (by simp [behindDrain, ProducerPc.inSection, ProducerPc.dispatching])
    · refine hinv.prepare rfl rfl hidle hcall.generation
        (fun next hnext => (Option.some.inj hnext).le)
        (fun slot hpos hwaits => ?_) (fun _ => .inl (by rw [hpc]; rfl))
      exact absurd hwaits (Nat.not_lt.2 hpos)
  case drainStore site lowLatencyActive word =>
    have hidle : ∀ slot, ¬ (before.producer thread).awaits slot := by
      simp [hpc, ProducerPc.awaits]
    rw [hpc] at hcall
    obtain ⟨rfl, rfl⟩ := by simpa using hstep
    cases site
    · exact hinv.prepare rfl rfl hidle hcall.generation
        (by simp [ProducerPc.nextSlot]) (fun _ _ => id)
        (by simp [ProducerPc.inSection, ProducerPc.dispatching])
    · exact hinv.prepare rfl rfl hidle hcall.generation
        (by simp [ProducerPc.nextSlot]) (fun _ _ => id)
        (fun _ => .inl (by rw [hpc]; rfl))
  case lease request =>
    have hidle : ∀ slot, ¬ (before.producer thread).awaits slot := by
      simp [hpc, ProducerPc.awaits]
    split at hstep
    next hskip =>
      obtain ⟨rfl, rfl⟩ := by simpa using hstep
      refine hinv.prepare rfl rfl hidle ?_ ?_
        (fun slot _ => behindLease_awaits _ _ slot)
        (fun _ => .inr (hapart (by rw [State.enters, hpc]; exact hskip)))
      · simp [behindLease_dispatching]
      · simp [behindLease_nextSlot]
    next =>
      obtain ⟨rfl, rfl⟩ := by simpa using hstep
      exact hinv.prepare rfl rfl hidle (by simp [ProducerPc.dispatching])
        (by simp [ProducerPc.nextSlot]) (fun _ _ => id)
        (by simp [ProducerPc.inSection, ProducerPc.dispatching])
  case lock request =>
    have hidle : ∀ slot, ¬ (before.producer thread).awaits slot := by
      simp [hpc, ProducerPc.awaits]
    split at hstep
    next => simp at hstep
    next hfree =>
      obtain ⟨rfl, rfl⟩ := by simpa using hstep
      refine hinv.prepare rfl rfl hidle ?_ ?_
        (fun slot _ => behindLease_awaits _ _ slot)
        (fun _ => .inr (hapart (by
          rw [State.enters, hpc]
          simpa using hfree)))
      · simp [behindLease_dispatching]
      · simp [behindLease_nextSlot]
  case drainProbe request =>
    obtain ⟨rfl, rfl⟩ := by simpa using hstep
    exact hinv.prepare rfl rfl (by simp [hpc, ProducerPc.awaits])
      (by simp [ProducerPc.dispatching]) (by simp [ProducerPc.nextSlot])
      (fun _ _ => id) (by simp [ProducerPc.inSection, ProducerPc.dispatching])
  case reprobe request gateSkipped =>
    obtain ⟨rfl, rfl⟩ := by simpa using hstep
    exact hinv.prepare rfl rfl (by simp [hpc, ProducerPc.awaits])
      (by simp [ProducerPc.dispatching]) (by simp [ProducerPc.nextSlot])
      (fun _ _ => id) (fun _ => .inl (by rw [hpc]; rfl))
  case loadGeneration request gateSkipped lowLatencyActive =>
    obtain ⟨rfl, rfl⟩ := by simpa using hstep
    refine hinv.prepare rfl rfl (by simp [hpc, ProducerPc.awaits]) ?_
      (by simp [ProducerPc.nextSlot]) (fun _ _ => id)
      (fun _ => .inl (by rw [hpc]; rfl))
    intro dispatch hdispatch
    obtain rfl := Option.some.inj hdispatch
    exact Nat.succ_ne_zero _
  case storeGeneration dispatch =>
    rw [hpc] at hcall
    obtain ⟨rfl, rfl⟩ := by simpa using hstep
    exact hinv.prepare rfl rfl (by simp [hpc, ProducerPc.awaits])
      hcall.generation (by simp [ProducerPc.nextSlot]) (fun _ _ => id)
      (fun _ => .inl (by rw [hpc]; rfl))
  case publish dispatch slot =>
    split at hstep
    next hslot =>
      obtain ⟨rfl, rfl⟩ := by simpa using hstep
      exact hinv.publish hslot hpc
    next hlast =>
      obtain ⟨rfl, rfl⟩ := by simpa using hstep
      refine hinv.proceed rfl hsame (by rw [hpc]; rfl)
        (dispatching_behindPublish _ _) ?_ (.inl (behindPublish_covers _ _))
        (by simp [behindPublish_nextSlot])
        (fun _ _ _ _ => .inl awaits_behindPublish)
      intro index _ hindex
      rw [hpc]
      exact hindex.trans_le (Nat.not_lt.1 hlast)
  case probe dispatch pendingProbe =>
    split at hstep
    next =>
      obtain ⟨rfl, rfl⟩ := by simpa using hstep
      exact hinv.proceed rfl hsame (by rw [hpc]; rfl) rfl
        (by simp [hpc, ProducerPc.awaits]) (.inl rfl)
        (by simp [ProducerPc.nextSlot]) (by simp [ProducerPc.awaits])
    next => simp at hstep
  case body dispatch elided =>
    obtain ⟨rfl, rfl⟩ := by simpa using hstep
    exact hinv.proceed rfl hsame (by rw [hpc]; rfl) rfl
      (by simp [hpc, ProducerPc.awaits]) (.inl rfl)
      (fun next hnext => (Option.some.inj hnext).le)
      (fun slot hpos _ _ => .inl hpos)
  case join dispatch elided slot =>
    rw [hpc] at hcall
    have hpos := hcall.positive slot rfl
    split at hstep
    next hslot =>
      split at hstep
      next hdone =>
        obtain ⟨rfl, rfl⟩ := by simpa using hstep
        refine hinv.proceed rfl hsame (by rw [hpc]; rfl) rfl ?_ (.inl rfl)
          (fun next hnext => ?_) ?_
        · rw [hpc]
          exact fun index hindex _ => Nat.le_of_succ_le hindex
        · have := Option.some.inj hnext
          omega
        · rw [hpc]
          intro index _ _ hindex
          rcases Nat.lt_or_eq_of_le hindex with hlater | rfl
          · exact .inl hlater
          · exact .inr (.inr (.inl (done_of_withoutAck hdone)))
      next => simp at hstep
    next hlast =>
      obtain ⟨rfl, rfl⟩ := by simpa using hstep
      refine hinv.moveCall rfl hsame
        (.idle (by simp [ProducerPc.dispatching])
          (by simp [ProducerPc.nextSlot]) fun _ => id)
        (by simp [ProducerPc.inSection, ProducerPc.dispatching]) ?_
      rw [hpc]
      intro index _ hindex hwaits
      exact absurd (hindex.trans_le (Nat.not_lt.1 hlast))
        (Nat.not_lt.2 hwaits)
  case coverBody dispatch elided slot =>
    rw [hpc] at hcall
    obtain ⟨rfl, rfl⟩ := by simpa using hstep
    exact hinv.proceed rfl hsame (by rw [hpc]; rfl) rfl
      (by rw [hpc]; exact fun _ hwaits _ => hwaits)
      (.inr (hcall.covering dispatch elided slot (.inl rfl)))
      hcall.positive (by rw [hpc]; exact fun _ _ _ hwaits => .inl hwaits)
  case coverStamp dispatch elided slot =>
    rw [hpc] at hcall
    have hpos := hcall.positive slot rfl
    split at hstep
    next hmailbox =>
      obtain ⟨rfl, rfl⟩ := by simpa using hstep
      refine hinv.coverStamp hpc hmailbox ?_
      split
      · exact .inl rfl
      · exact .inr rfl
    next =>
      obtain ⟨rfl, rfl⟩ := by simpa using hstep
      refine hinv.proceed rfl hsame (by rw [hpc]; rfl) rfl ?_ (.inl rfl)
        (fun next hnext => ?_) ?_
      · rw [hpc]
        exact fun index hindex _ => Nat.le_of_succ_le hindex
      · have := Option.some.inj hnext
        omega
      · rw [hpc]
        intro index hfirst hbound hindex
        rcases Nat.lt_or_eq_of_le hindex with hlater | rfl
        · exact .inl hlater
        · right
          left
          rw [MailboxWord.coldCollapseDispatch_of_seenPhase
            (hcall.current dispatch rfl slot hfirst hbound le_rfl)]
          exact published_coldCollapseDispatch
            (hcall.covering dispatch elided slot (.inr rfl))
  case coverMark dispatch elided slot =>
    rw [hpc] at hcall
    have hpos := hcall.positive slot rfl
    obtain ⟨rfl, rfl⟩ := by simpa using hstep
    refine hinv.proceed rfl hsame (by rw [hpc]; rfl) rfl ?_ (.inl rfl)
      (fun next hnext => ?_) ?_
    · rw [hpc]
      exact fun index hindex _ => hindex
    · have := Option.some.inj hnext
      omega
    · rw [hpc]
      exact fun index _ _ hindex => .inl hindex
  all_goals
    obtain ⟨rfl, rfl⟩ := by simpa using hstep
    exact hinv.proceed rfl hsame (by rw [hpc]; rfl) rfl
      (by simp [hpc, ProducerPc.awaits]) (.inl rfl)
      (by simp [ProducerPc.nextSlot]) (by simp [ProducerPc.awaits])

/-! ## Steps of the pool -/

/-- A step that replaces one slot by what it evolves to. -/
theorem PoolInv.setSlot (hinv : PoolInv participants before) {index : ℕ}
    {moved : Slot} (hmoved : Evolves (before.slots index) moved) (slot : ℕ) :
    Evolves (before.slots slot) ((before.setSlot index moved).slots slot) := by
  by_cases hsame : slot = index
  · subst hsame
    simpa [State.setSlot] using hmoved
  · simpa [State.setSlot, hsame] using (hinv.slots slot).refl

theorem PoolInv.release (hinv : PoolInv participants before)
    (released : List ℕ) (slot : ℕ) :
    Evolves (before.slots slot) (rouseReleased before.slots released slot) := by
  simp only [rouseReleased]
  split
  · exact (hinv.slots slot).rouse
  · exact (hinv.slots slot).refl

/-- Guards touch no call, and wake workers at most. -/
theorem stepGuard_slots {index : ℕ} (hinv : PoolInv participants before)
    (hstep : stepGuard participants before index = some (after, event))
    (slot : ℕ) : Evolves (before.slots slot) (after.slots slot) := by
  unfold stepGuard at hstep
  repeat' split at hstep
  all_goals simp only [Option.some.injEq, Prod.mk.injEq, reduceCtorEq] at hstep
  all_goals obtain ⟨rfl, rfl⟩ := hstep
  case h_4 => exact (hinv.slots slot).rouse
  all_goals exact (hinv.slots slot).refl

/-- Actions that publish nothing and cover nothing: all but a thread's next
operation. -/
theorem step_slots (hinv : PoolInv participants before)
    (hstep : (pool participants).step before action = some (after, event))
    (haction : ∀ thread, action ≠ .advance thread) (slot : ℕ) :
    Evolves (before.slots slot) (after.slots slot) := by
  have hsame := (hinv.slots slot).refl
  cases action <;> simp only [pool] at hstep
  case advance thread => exact absurd rfl (haction thread)
  case advanceGuard index => exact stepGuard_slots hinv hstep slot
  case cover thread =>
    repeat' split at hstep
    all_goals simp only [Option.some.injEq, Prod.mk.injEq, reduceCtorEq] at hstep
    obtain ⟨rfl, rfl⟩ := hstep
    exact hinv.setSlot ((hinv.slots _).claimed _) slot
  case wakeTwo thread released =>
    repeat' split at hstep
    all_goals simp only [Option.some.injEq, Prod.mk.injEq, reduceCtorEq] at hstep
    obtain ⟨rfl, rfl⟩ := hstep
    exact hinv.release released slot
  case worker index =>
    split at hstep
    next =>
      obtain ⟨moved, hmoved, hafter⟩ := Option.map_eq_some_iff.1 hstep
      obtain ⟨rfl, rfl⟩ := by simpa using hafter
      exact hinv.setSlot ((hinv.slots index).advance hmoved) slot
    next => simp at hstep
  case leaveSpin index =>
    split at hstep
    next =>
      obtain ⟨moved, hmoved, hafter⟩ := Option.map_eq_some_iff.1 hstep
      obtain ⟨rfl, rfl⟩ := by simpa using hafter
      exact hinv.setSlot ((hinv.slots index).leaveSpin hmoved) slot
    next => simp at hstep
  case chainWake index released =>
    split at hstep
    next mailbox hpc =>
      split at hstep
      next =>
        obtain ⟨rfl, rfl⟩ := by simpa using hstep
        have hleft := hinv.setSlot ((hinv.slots index).leaveChain hpc) slot
        refine hleft.trans ?_
        simp only [rouseReleased]
        split
        · exact hleft.sound.rouse
        · exact hleft.sound.refl
      next => simp at hstep
    next => simp at hstep
  case interrupt index =>
    split at hstep
    all_goals simp only [Option.some.injEq, Prod.mk.injEq, reduceCtorEq] at hstep
    obtain ⟨rfl, rfl⟩ := hstep
    exact hinv.setSlot (hinv.slots index).rouse slot
  case engage thread onPool =>
    obtain ⟨rfl, rfl⟩ := by simpa using hstep
    cases onPool <;> exact hsame
  all_goals
    repeat' split at hstep
  all_goals simp only [Option.some.injEq, Prod.mk.injEq, reduceCtorEq] at hstep
  all_goals
    obtain ⟨rfl, rfl⟩ := hstep
    exact hsame

/-- Only the caller's action moves its call. -/
theorem producer_of_caller
    (hstep : (pool participants).step before action = some (after, event))
    (hcaller : action.caller = none) : after.producer = before.producer :=
  funext fun other => step_other hstep (by simp [hcaller])

theorem poolInv_step (hinv : PoolInv participants before)
    (hapart : SectionsApart before action)
    (hstep : (pool participants).step before action = some (after, event)) :
    PoolInv participants after := by
  have hslots := step_slots hinv hstep
  cases haction : action
  case advance thread =>
    subst haction
    exact poolInv_stepProducer hinv hapart hstep
  case dispatch thread request =>
    subst haction
    simp only [pool] at hstep
    split at hstep
    next hidle =>
      obtain ⟨rfl, rfl⟩ := by simpa using hstep
      refine hinv.prepare rfl rfl (by simp [hidle, ProducerPc.awaits]) ?_ ?_ ?_
        ?_
      all_goals
        split <;>
          simp [ProducerPc.dispatching, ProducerPc.nextSlot, ProducerPc.awaits,
            ProducerPc.inSection]
    next => simp at hstep
  case probeDone thread slot =>
    subst haction
    simp only [pool] at hstep
    split at hstep
    next hpc =>
      split at hstep
      next =>
        obtain ⟨rfl, rfl⟩ := by simpa using hstep
        exact hinv.proceed rfl (hslots (by simp)) (by rw [hpc]; rfl) rfl
          (by simp [hpc, ProducerPc.awaits]) (.inl rfl)
          (by simp [ProducerPc.nextSlot]) (by simp [ProducerPc.awaits])
      next => simp at hstep
    next => simp at hstep
  case giveUp thread =>
    subst haction
    simp only [pool] at hstep
    split at hstep
    next hpc =>
      obtain ⟨rfl, rfl⟩ := by simpa using hstep
      exact hinv.proceed rfl (hslots (by simp)) (by rw [hpc]; rfl) rfl
        (by simp [hpc, ProducerPc.awaits]) (.inl rfl)
        (by simp [ProducerPc.nextSlot]) (by simp [ProducerPc.awaits])
    next => simp at hstep
  case cover thread =>
    subst haction
    have hcall := hinv.calls thread
    simp only [pool] at hstep
    split at hstep
    next hpc =>
      split at hstep
      next hcover =>
        obtain ⟨rfl, rfl⟩ := by simpa using hstep
        rw [hpc] at hcall
        exact hinv.proceed rfl (hslots (by simp)) (by rw [hpc]; rfl) rfl
          (by rw [hpc]; exact fun _ hwaits _ => hwaits) (.inr hcover.2.1)
          hcall.positive (by rw [hpc]; exact fun _ _ _ hwaits => .inl hwaits)
      next => simp at hstep
    next => simp at hstep
  case wakeTwo thread released =>
    subst haction
    have hcall := hinv.calls thread
    simp only [pool] at hstep
    split at hstep
    next next hnext =>
      split at hstep
      next =>
        obtain ⟨rfl, rfl⟩ := by simpa using hstep
        have hmoved := hslots (by simp)
        cases hpc : before.producer thread <;>
          simp only [behindWake, hpc, Option.some.injEq, reduceCtorEq] at hnext
        case drainWake site lowLatencyActive =>
          subst hnext
          rw [hpc] at hcall
          have hnone : ∀ slot, ¬ (before.producer thread).awaits slot := by
            simp [hpc, ProducerPc.awaits]
          cases site
          · exact hinv.moveCall rfl hmoved
              (.idle hcall.generation (by simp [ProducerPc.nextSlot])
                fun _ => id)
              (by simp [ProducerPc.inSection, ProducerPc.dispatching])
              fun slot _ _ hwaits => absurd hwaits (hnone slot)
          · exact hinv.moveCall rfl hmoved
              (.idle hcall.generation (by simp [ProducerPc.nextSlot])
                fun _ => id) (fun _ => .inl (by rw [hpc]; rfl))
              fun slot _ _ hwaits => absurd hwaits (hnone slot)
        case wake dispatch =>
          subst hnext
          exact hinv.proceed rfl hmoved (by rw [hpc]; rfl) rfl
            (by simp [hpc, ProducerPc.awaits]) (.inl rfl)
            (by simp [ProducerPc.nextSlot]) (by simp [ProducerPc.awaits])
      next => simp at hstep
    next => simp at hstep
  case collect thread slot =>
    subst haction
    refine hinv.evolve ?_ (hslots (by simp))
    simp only [pool] at hstep
    repeat' split at hstep
    all_goals simp only [Option.some.injEq, Prod.mk.injEq, reduceCtorEq] at hstep
    obtain ⟨rfl, rfl⟩ := hstep
    rfl
  all_goals
    subst haction
    exact hinv.evolve (producer_of_caller hstep rfl) (hslots (by simp))

end Citor.ParkingPool
