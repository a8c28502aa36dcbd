import Citor.Dispatch.PoolInvariant

/-!
# Low-latency guards keep the workers out of the park path

A guard takes an epoch, raises the depth and waits until every worker has
acknowledged its epoch or a later one.  A worker acknowledges only while it
sees the depth raised; as long as it does not acknowledge a guard that has not
raised the depth yet and then finds the depth zero, no worker is on its way to
the futex wait while a guard is alive.
-/

namespace Citor.ParkingPool

open Citor.Interleaving
open Citor.WorkerLoop

/-- The guard counts in `hotSpinDepth`. -/
def Guard.raised (guard : Guard) : Bool :=
  guard.onPool && guard.pc != .raise && guard.pc != .destroyed

/-- The guard has its epoch and is not destroyed. -/
def Guard.engaged (guard : Guard) : Bool :=
  guard.onPool && guard.pc != .destroyed

/-- The guard's constructor has returned and its destructor has not begun. -/
def Guard.ready (guard : Guard) : Bool :=
  guard.onPool && guard.pc == .alive

/-- The slots whose acknowledgement the constructor has seen. -/
def GuardPc.sawAck : GuardPc → ℕ → Prop
  | .loadWord next, slot | .storeWord next _, slot | .wakeAll next, slot
  | .awaitAck next, slot => slot < next
  | .alive, _ => True
  | .raise, _ | .destroyed, _ => False

/-- Some guard on the pool is alive. -/
def State.guarded (state : State) : Prop :=
  ∃ guard ∈ state.guards, guard.ready = true

/-- Places from the second depth probe to the futex wait. -/
def parkPath : WorkerPc → Bool
  | .loadToken | .recheck _ | .parkTest _ | .wait _ | .asleep => true
  | _ => false

/-- Whether a call runs as low-latency: the flag it decided on. -/
def ProducerPc.lowLatency (pc : ProducerPc) : Bool :=
  match pc with
  | .loadGeneration _ _ lowLatencyActive => lowLatencyActive
  | _ => pc.dispatching.any (·.lowLatencyActive)

/-- Whether a thread's next step decides that low-latency mode is active. -/
def State.decidesLowLatency (state : State) (thread : ℕ) : Prop :=
  match state.producer thread with
  | .lease request => request.locked = false ∧
      state.control.hotSpinDepth ≠ 0 ∧ state.lowLatencyOwner thread = true
  | .reprobe _ _ => state.control.hotSpinDepth ≠ 0
  | _ => False

/-- The guards do not let the workers down:
low-latency mode is decided on only while some guard is alive, a guard is
destroyed under a low-latency dispatch only if another one is alive, and no
worker that has acknowledged a guard's epoch finds the depth zero before that
guard has raised it. -/
structure GuardsHold (state : State) (action : Action) : Prop where
  decided : ∀ thread, action = .advance thread →
    state.decidesLowLatency thread → state.guarded
  outlived : ∀ thread index, action = .disengage thread index →
    (∃ caller, (state.producer caller).lowLatency = true) →
    ∃ other guard, other ≠ index ∧ state.guards[other]? = some guard ∧
      guard.ready = true
  raised : ∀ slot, action = .worker slot →
    (state.slots slot).pc = .recheckDepth → state.control.hotSpinDepth = 0 →
    ∀ guard ∈ state.guards, guard.onPool = true → guard.pc = .raise →
      (state.slots slot).hotSpinEpoch < guard.epoch

structure GuardInv (participants : ℕ) (state : State) : Prop where
  depth : state.control.hotSpinDepth = state.guards.countP Guard.raised
  foreign : ∀ guard ∈ state.guards, guard.onPool = false →
    guard.pc = .alive ∨ guard.pc = .destroyed
  below : ∀ guard ∈ state.guards, guard.onPool = true →
    guard.epoch ≤ state.control.hotSpinEpoch
  epochs : ∀ slot,
    (state.slots slot).hotSpinEpoch ≤ state.control.hotSpinEpoch
  storing : ∀ slot epoch reload,
    (state.slots slot).pc = .storeEpoch epoch reload →
    (state.slots slot).hotSpinEpoch ≤ epoch ∧
      epoch ≤ state.control.hotSpinEpoch
  unparked : ∀ guard ∈ state.guards, guard.engaged = true → ∀ slot,
    guard.epoch ≤ (state.slots slot).hotSpinEpoch →
    parkPath (state.slots slot).pc = false
  acks : ∀ guard ∈ state.guards, guard.onPool = true → ∀ slot, 1 ≤ slot →
    slot < participants → guard.pc.sawAck slot →
    guard.epoch ≤ (state.slots slot).hotSpinEpoch
  lowLatency : ∀ thread, (state.producer thread).lowLatency = true →
    state.guarded

variable {participants : ℕ} {before after : State} {action : Action}
variable {event : Option Event}

/-- An alive guard keeps every worker off the park path. -/
theorem GuardInv.unparked_of_guarded (hinv : GuardInv participants before)
    (hguarded : before.guarded) {slot : ℕ} (hpos : 1 ≤ slot)
    (hslot : slot < participants) :
    parkPath (before.slots slot).pc = false := by
  obtain ⟨guard, hmem, hready⟩ := hguarded
  simp only [Guard.ready, Bool.and_eq_true, beq_iff_eq] at hready
  refine hinv.unparked guard hmem (by simp [Guard.engaged, hready]) slot ?_
  exact hinv.acks guard hmem hready.1 slot hpos hslot
    (by rw [hready.2]; trivial)

theorem guardInv_start (participants : ℕ) : GuardInv participants start := by
  constructor <;>
    simp [start, Slot.fresh, ProducerPc.lowLatency, ProducerPc.dispatching]

/-! ## Workers and epochs -/

/-- How a step moves a worker's epoch and its place; `acts` says that it is
the worker's own step. -/
structure EpochStep (control : Control) (acts : Prop) (old new : Slot) :
    Prop where
  own : new.hotSpinEpoch = old.hotSpinEpoch ∨
    ∃ epoch reload, old.pc = .storeEpoch epoch reload ∧
      new.hotSpinEpoch = epoch ∧ parkPath new.pc = false
  storing : ∀ epoch reload, new.pc = .storeEpoch epoch reload →
    new.hotSpinEpoch = old.hotSpinEpoch ∧
      (epoch = control.hotSpinEpoch ∨ old.pc = .storeEpoch epoch reload)
  parks : parkPath new.pc = true → parkPath old.pc = true ∨
    acts ∧ old.pc = .recheckDepth ∧ control.hotSpinDepth = 0

theorem EpochStep.refl (control : Control) (acts : Prop) (slot : Slot) :
    EpochStep control acts slot slot :=
  ⟨.inl rfl, fun _ _ hpc => ⟨rfl, .inr hpc⟩, .inl⟩

/-- A step to a place that neither parks nor stores an epoch. -/
theorem EpochStep.ofPlain {control : Control} {acts : Prop} {old new : Slot}
    (hown : new.hotSpinEpoch = old.hotSpinEpoch)
    (hstore : ∀ epoch reload, new.pc ≠ .storeEpoch epoch reload)
    (hpark : parkPath new.pc = false) : EpochStep control acts old new :=
  ⟨.inl hown, fun epoch reload hpc => absurd hpc (hstore epoch reload),
    by simp [hpark]⟩

theorem examine_plain (lastSeen mailbox : Mailbox) :
    (∀ epoch reload,
      examine lastSeen mailbox ≠ .storeEpoch epoch reload) ∧
      parkPath (examine lastSeen mailbox) = false := by
  unfold examine comparePhase
  repeat' split
  all_goals exact ⟨nofun, rfl⟩

theorem comparePhase_plain (lastSeen mailbox : Mailbox) :
    (∀ epoch reload,
      comparePhase lastSeen mailbox ≠ .storeEpoch epoch reload) ∧
      parkPath (comparePhase lastSeen mailbox) = false := by
  unfold comparePhase
  split
  all_goals exact ⟨nofun, rfl⟩

theorem advance_epochs {control : Control} {acts : Prop} (hacts : acts)
    {slot moved : Slot}
    (hstep : slot.advance control participants = some moved) :
    EpochStep control acts slot moved := by
  cases hpc : slot.pc <;> simp only [Slot.advance, hpc, reduceCtorEq] at hstep
  case load =>
    obtain rfl := by simpa using hstep
    obtain ⟨hstore, hpark⟩ := examine_plain slot.lastSeen slot.mailbox
    exact .ofPlain rfl hstore hpark
  case exitTest mailbox =>
    obtain ⟨hstore, hpark⟩ := comparePhase_plain slot.lastSeen mailbox
    split at hstep
    all_goals obtain rfl := by simpa using hstep
    · exact .ofPlain rfl hstore hpark
    · exact .ofPlain rfl (by simp) rfl
  case enter mailbox =>
    obtain rfl := by simpa using hstep
    unfold Slot.claim
    repeat' split
    all_goals exact .ofPlain rfl (by simp) rfl
  case stamp mailbox =>
    obtain rfl := by simpa using hstep
    unfold Slot.stampDone
    split
    next stamped _ =>
      obtain ⟨hstore, hpark⟩ := examine_plain stamped stamped
      split
      · exact .ofPlain rfl hstore hpark
      · exact .ofPlain rfl (by simp) rfl
    next => exact .ofPlain rfl (by simp) rfl
  case loadEpoch reload =>
    obtain rfl := by simpa using hstep
    refine ⟨.inl rfl, fun epoch again hstore => ⟨rfl, .inl ?_⟩,
      by simp [parkPath]⟩
    simpa using (WorkerPc.storeEpoch.inj hstore).1.symm
  case storeEpoch epoch reload =>
    obtain rfl := by simpa using hstep
    refine ⟨.inr ⟨epoch, reload, hpc, rfl, ?_⟩, ?_, ?_⟩ <;>
      cases reload <;> simp [parkPath]
  case spin | woken =>
    obtain ⟨hstore, hpark⟩ := examine_plain slot.lastSeen slot.mailbox
    split at hstep
    all_goals obtain rfl := by simpa using hstep
    · first
      | exact .ofPlain rfl hstore hpark
      | exact .ofPlain rfl (by simp) rfl
    · first
      | exact .refl control acts _
      | exact .ofPlain rfl hstore hpark
  case recheck token =>
    obtain ⟨hstore, hpark⟩ := examine_plain slot.lastSeen slot.mailbox
    repeat' split at hstep
    all_goals obtain rfl := by simpa using hstep
    · exact .ofPlain rfl hstore hpark
    · exact ⟨.inl rfl, by simp, fun _ => .inl (by rw [hpc]; rfl)⟩
    · exact ⟨.inl rfl, by simp, fun _ => .inl (by rw [hpc]; rfl)⟩
  case recheckDepth =>
    split at hstep
    next =>
      obtain rfl := by simpa using hstep
      exact .ofPlain rfl (by simp) rfl
    next hdepth =>
      obtain rfl := by simpa using hstep
      exact ⟨.inl rfl, by simp, fun _ =>
        .inr ⟨hacts, hpc, by simpa using hdepth⟩⟩
  case loadToken | parkTest | wait =>
    repeat' split at hstep
    all_goals obtain rfl := by simpa using hstep
    all_goals exact ⟨.inl rfl, by simp, fun _ => .inl (by rw [hpc]; rfl)⟩
  all_goals
    repeat' split at hstep
  all_goals
    obtain rfl := by simpa using hstep
    exact .ofPlain rfl (by simp) rfl

theorem rouse_epochs (control : Control) (acts : Prop) (slot : Slot) :
    EpochStep control acts slot slot.rouse := by
  unfold Slot.rouse
  split
  · exact .ofPlain rfl nofun rfl
  · exact .refl control acts slot

theorem leaveSpin_epochs {control : Control} {acts : Prop} {slot moved : Slot}
    (hstep : slot.leaveSpin = some moved) :
    EpochStep control acts slot moved := by
  unfold Slot.leaveSpin at hstep
  split at hstep
  next =>
    obtain rfl := by simpa using hstep
    exact .ofPlain rfl nofun rfl
  next => simp at hstep

/-- The producer's updates of a slot. -/
theorem EpochStep.ofProducer (control : Control) (acts : Prop) (slot : Slot)
    (mailbox : Mailbox) (claimedAt : ℕ) :
    EpochStep control acts slot { slot with
      mailbox := mailbox, claimedAt := claimedAt } :=
  ⟨.inl rfl, fun _ _ hpc => ⟨rfl, .inr hpc⟩, .inl⟩

theorem setSlot_epochs {index : ℕ} {moved : Slot} {slot : ℕ} {acts : Prop}
    (hmoved : slot = index →
      EpochStep before.control acts (before.slots index) moved) :
    EpochStep before.control acts (before.slots slot)
      ((before.setSlot index moved).slots slot) := by
  by_cases hsame : slot = index
  · subst hsame
    simpa [State.setSlot] using hmoved rfl
  · simpa [State.setSlot, hsame] using
      .refl before.control acts (before.slots slot)

theorem stepProducer_epochs {thread : ℕ}
    (hstep : stepProducer participants before thread = some (after, event))
    (acts : Prop) (slot : ℕ) :
    EpochStep before.control acts (before.slots slot) (after.slots slot) := by
  cases hpc : before.producer thread <;>
    simp only [stepProducer, hpc, reduceCtorEq] at hstep
  all_goals
    repeat' split at hstep
  all_goals simp only [Option.some.injEq, Prod.mk.injEq, reduceCtorEq] at hstep
  all_goals
    obtain ⟨rfl, rfl⟩ := hstep
    first
    | exact .refl before.control acts (before.slots slot)
    | exact setSlot_epochs fun _ => .ofProducer _ _ _ _ _

/-- Every step moves every worker's epoch and place as its own loop does. -/
theorem step_epochs
    (hstep : (pool participants).step before action = some (after, event))
    (slot : ℕ) :
    EpochStep before.control (action = .worker slot) (before.slots slot)
      (after.slots slot) := by
  have hsame := EpochStep.refl before.control (action = .worker slot)
    (before.slots slot)
  cases action <;> simp only [pool] at hstep
  case advance thread => exact stepProducer_epochs hstep _ slot
  case advanceGuard index =>
    unfold stepGuard at hstep
    repeat' split at hstep
    all_goals simp only [Option.some.injEq, Prod.mk.injEq, reduceCtorEq] at hstep
    all_goals obtain ⟨rfl, rfl⟩ := hstep
    case h_4 => exact rouse_epochs before.control _ _
    all_goals exact hsame
  case cover thread =>
    repeat' split at hstep
    all_goals simp only [Option.some.injEq, Prod.mk.injEq, reduceCtorEq] at hstep
    obtain ⟨rfl, rfl⟩ := hstep
    exact setSlot_epochs fun _ => .ofProducer _ _ _ _ _
  case wakeTwo thread released =>
    repeat' split at hstep
    all_goals simp only [Option.some.injEq, Prod.mk.injEq, reduceCtorEq] at hstep
    obtain ⟨rfl, rfl⟩ := hstep
    simp only [State.setProducer, rouseReleased]
    split
    · exact rouse_epochs _ _ _
    · exact hsame
  case worker index =>
    split at hstep
    next =>
      obtain ⟨moved, hmoved, hafter⟩ := Option.map_eq_some_iff.1 hstep
      obtain ⟨rfl, rfl⟩ := by simpa using hafter
      exact setSlot_epochs fun hself =>
        advance_epochs (by rw [hself]) hmoved
    next => simp at hstep
  case leaveSpin index =>
    split at hstep
    next =>
      obtain ⟨moved, hmoved, hafter⟩ := Option.map_eq_some_iff.1 hstep
      obtain ⟨rfl, rfl⟩ := by simpa using hafter
      exact setSlot_epochs fun _ => leaveSpin_epochs hmoved
    next => simp at hstep
  case chainWake index released =>
    split at hstep
    next mailbox hpc =>
      split at hstep
      next hreleases =>
        obtain ⟨rfl, rfl⟩ := by simpa using hstep
        obtain ⟨hstore, hpark⟩ :=
          examine_plain (before.slots index).lastSeen mailbox
        simp only [rouseReleased, State.setSlot]
        by_cases hself : slot = index
        · subst hself
          have hawake : slot ∉ released := fun hmem => by
            simpa [hpc] using hreleases.2.1 slot hmem
          rw [if_neg hawake, Function.update_self]
          exact .ofPlain rfl hstore hpark
        · rw [Function.update_of_ne hself]
          split
          · exact rouse_epochs _ _ _
          · exact hsame
      next => simp at hstep
    next => simp at hstep
  case interrupt index =>
    split at hstep
    all_goals simp only [Option.some.injEq, Prod.mk.injEq, reduceCtorEq] at hstep
    obtain ⟨rfl, rfl⟩ := hstep
    exact setSlot_epochs fun _ => rouse_epochs _ _ _
  case engage thread onPool =>
    obtain ⟨rfl, rfl⟩ := by simpa using hstep
    cases onPool <;> exact hsame
  all_goals
    repeat' split at hstep
  all_goals simp only [Option.some.injEq, Prod.mk.injEq, reduceCtorEq] at hstep
  all_goals
    obtain ⟨rfl, rfl⟩ := hstep
    exact hsame

/-! ## Low-latency decisions -/

theorem lowLatency_behindPublish (participants : ℕ) (dispatch : Dispatch) :
    (behindPublish participants dispatch).lowLatency =
      dispatch.lowLatencyActive := by
  unfold behindPublish
  repeat' split
  all_goals rfl

theorem lowLatency_behindLease (request : Request) (gateSkipped : Bool) :
    (behindLease request gateSkipped).lowLatency =
      (!request.locked && gateSkipped) := by
  unfold behindLease
  split
  next hlocked => simp [hlocked, ProducerPc.lowLatency,
      ProducerPc.dispatching]
  next hfree => simp [hfree, ProducerPc.lowLatency]

theorem stepProducer_lowLatency {thread : ℕ}
    (hstep : stepProducer participants before thread = some (after, event))
    (hlow : (after.producer thread).lowLatency = true) :
    (before.producer thread).lowLatency = true ∨
      before.decidesLowLatency thread := by
  cases hpc : before.producer thread <;>
    simp only [stepProducer, hpc, reduceCtorEq] at hstep
  case lease request =>
    split at hstep
    next hskip =>
      obtain ⟨rfl, -⟩ := by simpa using hstep
      simp only [State.setProducer, Function.update_self,
        lowLatency_behindLease, Bool.and_true, Bool.not_eq_true'] at hlow
      right
      rw [State.decidesLowLatency, hpc]
      exact ⟨hlow, hskip⟩
    next =>
      obtain ⟨rfl, -⟩ := by simpa using hstep
      simp [State.setProducer, ProducerPc.lowLatency, ProducerPc.dispatching]
        at hlow
  case lock request =>
    split at hstep
    next => simp at hstep
    next =>
      obtain ⟨rfl, -⟩ := by simpa using hstep
      simp [State.setProducer, lowLatency_behindLease] at hlow
  case reprobe request gateSkipped =>
    obtain ⟨rfl, -⟩ := by simpa using hstep
    right
    rw [State.decidesLowLatency, hpc]
    simpa [State.setProducer, ProducerPc.lowLatency] using hlow
  case publish dispatch slot =>
    left
    split at hstep
    all_goals
      obtain ⟨rfl, -⟩ := by simpa using hstep
      simp only [State.setProducer, Function.update_self,
        lowLatency_behindPublish] at hlow
      exact hlow
  case drain site lowLatencyActive =>
    left
    repeat' split at hstep
    all_goals simp only [Option.some.injEq, Prod.mk.injEq, reduceCtorEq] at hstep
    all_goals
      obtain ⟨rfl, -⟩ := hstep
      simp only [State.setProducer, Function.update_self] at hlow
      cases site <;> exact hlow
  case drainStore site lowLatencyActive word =>
    left
    obtain ⟨rfl, -⟩ := by simpa using hstep
    simp only [State.setProducer, Function.update_self] at hlow
    cases site <;> exact hlow
  case coverStamp dispatch elided slot =>
    left
    repeat' split at hstep
    all_goals
      obtain ⟨rfl, -⟩ := by simpa using hstep
      simp only [State.setProducer, Function.update_self] at hlow
      exact hlow
  all_goals
    left
    repeat' split at hstep
  all_goals simp only [Option.some.injEq, Prod.mk.injEq, reduceCtorEq] at hstep
  all_goals
    obtain ⟨rfl, -⟩ := hstep
    simp only [State.finish, State.setProducer, Function.update_self] at hlow
    first
    | exact hlow
    | exact absurd hlow Bool.false_ne_true

/-- Low-latency mode is decided on at a lease or at the locked entry only. -/
theorem step_lowLatency
    (hstep : (pool participants).step before action = some (after, event))
    {thread : ℕ} (hlow : (after.producer thread).lowLatency = true) :
    (before.producer thread).lowLatency = true ∨
      action = .advance thread ∧ before.decidesLowLatency thread := by
  by_cases hcaller : action.caller = some thread
  · cases action <;> simp only [Action.caller, Option.some.injEq, reduceCtorEq]
      at hcaller
    all_goals subst hcaller
    all_goals simp only [pool] at hstep
    case advance =>
      exact (stepProducer_lowLatency hstep hlow).imp_right fun h => ⟨rfl, h⟩
    case dispatch request =>
      left
      split at hstep
      next =>
        obtain ⟨rfl, -⟩ := by simpa using hstep
        revert hlow
        simp only [State.setProducer, Function.update_self]
        split <;> simp [ProducerPc.lowLatency, ProducerPc.dispatching]
      next => simp at hstep
    case wakeTwo released =>
      left
      repeat' split at hstep
      all_goals simp only [Option.some.injEq, Prod.mk.injEq, reduceCtorEq]
        at hstep
      rename_i next hnext _
      obtain ⟨rfl, -⟩ := hstep
      cases hpc : before.producer _ <;>
        simp only [behindWake, hpc, Option.some.injEq, reduceCtorEq] at hnext
      case drainWake site lowLatencyActive =>
        subst hnext
        simp only [State.setProducer, Function.update_self] at hlow
        cases site <;> exact hlow
      case wake dispatch =>
        subst hnext
        simp only [State.setProducer, Function.update_self] at hlow
        exact hlow
    case collect slot =>
      left
      repeat' split at hstep
      all_goals simp only [Option.some.injEq, Prod.mk.injEq, reduceCtorEq]
        at hstep
      obtain ⟨rfl, -⟩ := hstep
      exact hlow
    case giveUp =>
      left
      split at hstep
      next hpc =>
        obtain ⟨rfl, -⟩ := by simpa using hstep
        simp only [State.setProducer, Function.update_self] at hlow
        rw [hpc]
        exact hlow
      next => simp at hstep
    case probeDone | cover =>
      left
      split at hstep
      next hpc =>
        split at hstep
        next =>
          obtain ⟨rfl, -⟩ := by simpa using hstep
          simp only [State.setProducer, Function.update_self] at hlow
          rw [hpc]
          exact hlow
        next => simp at hstep
      next => simp at hstep
  · left
    rwa [step_other hstep hcaller] at hlow

/-! ## Steps -/

/-- Actions on guards. -/
def Action.onGuard : Action → Bool
  | .engage _ _ | .advanceGuard _ | .retryWake _ | .disengage _ _ => true
  | _ => false

/-- The rest of the pool leaves the guards and their counters alone. -/
theorem step_guards
    (hstep : (pool participants).step before action = some (after, event))
    (haction : action.onGuard = false) :
    after.guards = before.guards ∧
      after.control.hotSpinDepth = before.control.hotSpinDepth ∧
      after.control.hotSpinEpoch = before.control.hotSpinEpoch := by
  cases action <;> simp only [Action.onGuard, reduceCtorEq] at haction
  all_goals simp only [pool] at hstep
  case advance thread =>
    cases hpc : before.producer thread <;>
      simp only [stepProducer, hpc, reduceCtorEq] at hstep
    all_goals
      repeat' split at hstep
    all_goals simp only [Option.some.injEq, Prod.mk.injEq, reduceCtorEq]
      at hstep
    all_goals
      obtain ⟨rfl, rfl⟩ := hstep
      exact ⟨rfl, rfl, rfl⟩
  case worker index =>
    split at hstep
    next =>
      obtain ⟨moved, -, hmoved⟩ := Option.map_eq_some_iff.1 hstep
      obtain ⟨rfl, rfl⟩ := by simpa using hmoved
      exact ⟨rfl, rfl, rfl⟩
    next => simp at hstep
  case leaveSpin index =>
    split at hstep
    next =>
      obtain ⟨moved, -, hmoved⟩ := Option.map_eq_some_iff.1 hstep
      obtain ⟨rfl, rfl⟩ := by simpa using hmoved
      exact ⟨rfl, rfl, rfl⟩
    next => simp at hstep
  all_goals
    repeat' split at hstep
  all_goals simp only [Option.some.injEq, Prod.mk.injEq, reduceCtorEq] at hstep
  all_goals
    obtain ⟨rfl, rfl⟩ := hstep
    exact ⟨rfl, rfl, rfl⟩

section Epochs

variable (hinv : GuardInv participants before)
variable (hepochs : ∀ slot, EpochStep before.control (action = .worker slot)
  (before.slots slot) (after.slots slot))
include hinv hepochs

/-- A worker's epoch only climbs. -/
theorem GuardInv.own_le (slot : ℕ) :
    (before.slots slot).hotSpinEpoch ≤ (after.slots slot).hotSpinEpoch := by
  rcases (hepochs slot).own with hsame | ⟨epoch, reload, hpc, hown, -⟩
  · exact hsame.ge
  · rw [hown]
    exact (hinv.storing slot epoch reload hpc).1

theorem GuardInv.own_below (slot : ℕ) :
    (after.slots slot).hotSpinEpoch ≤ before.control.hotSpinEpoch := by
  rcases (hepochs slot).own with hsame | ⟨epoch, reload, hpc, hown, -⟩
  · rw [hsame]
    exact hinv.epochs slot
  · rw [hown]
    exact (hinv.storing slot epoch reload hpc).2

theorem GuardInv.storing_step {slot epoch : ℕ} {reload : Bool}
    (hpc : (after.slots slot).pc = .storeEpoch epoch reload) :
    (after.slots slot).hotSpinEpoch ≤ epoch ∧
      epoch ≤ before.control.hotSpinEpoch := by
  obtain ⟨hown, rfl | hold⟩ := (hepochs slot).storing epoch reload hpc
  · rw [hown]
    exact ⟨hinv.epochs slot, le_rfl⟩
  · rw [hown]
    exact hinv.storing slot epoch reload hold

/-- A guard that had its epoch before the step still keeps the workers that
acknowledged it off the park path. -/
theorem GuardInv.unparked_step (hhold : GuardsHold before action)
    {guard : Guard} (hmem : guard ∈ before.guards)
    (hengaged : guard.engaged = true) {slot : ℕ}
    (hacked : guard.epoch ≤ (after.slots slot).hotSpinEpoch) :
    parkPath (after.slots slot).pc = false := by
  by_contra hpark
  rw [Bool.not_eq_false] at hpark
  rcases (hepochs slot).own with hsame | ⟨epoch, reload, -, -, hspins⟩
  · rw [hsame] at hacked
    rcases (hepochs slot).parks hpark with hold | ⟨hacts, hpc, hdepth⟩
    · simp [hinv.unparked guard hmem hengaged slot hacked] at hold
    · -- the depth is zero: the guard has not raised it
      simp only [Guard.engaged, Bool.and_eq_true, bne_iff_ne] at hengaged
      by_cases hraise : guard.pc = .raise
      · have hlate := hhold.raised slot hacts hpc hdepth guard hmem hengaged.1
          hraise
        omega
      · have hcount : 0 < before.guards.countP Guard.raised := by
          refine List.countP_pos_iff.2 ⟨guard, hmem, ?_⟩
          simp [Guard.raised, hengaged, hraise]
        have := hinv.depth
        omega
  · simp [hspins] at hpark

end Epochs

/-- Nobody touches the guards. -/
theorem GuardInv.keep (hinv : GuardInv participants before)
    (hhold : GuardsHold before action)
    (hstep : (pool participants).step before action = some (after, event))
    (haction : action.onGuard = false) : GuardInv participants after := by
  obtain ⟨hguards, hdepth, hepoch⟩ := step_guards hstep haction
  have hepochs := step_epochs hstep
  refine ⟨?_, ?_, ?_, ?_, ?_, ?_, ?_, ?_⟩
  · rw [hdepth, hguards]
    exact hinv.depth
  · rw [hguards]
    exact hinv.foreign
  · rw [hguards, hepoch]
    exact hinv.below
  · rw [hepoch]
    exact hinv.own_below hepochs
  · rw [hepoch]
    exact fun slot epoch reload => hinv.storing_step hepochs
  · rw [hguards]
    exact fun guard hmem hengaged slot =>
      hinv.unparked_step hepochs hhold hmem hengaged
  · rw [hguards]
    exact fun guard hmem hown slot hpos hslot hsaw =>
      (hinv.acks guard hmem hown slot hpos hslot hsaw).trans
        (hinv.own_le hepochs slot)
  · intro thread hlow
    rw [State.guarded, hguards]
    rcases step_lowLatency hstep hlow with hold | ⟨hacts, hdecides⟩
    · exact hinv.lowLatency thread hold
    · exact hhold.decided thread hacts hdecides

theorem countP_set {guards : List Guard} {index : ℕ} {old : Guard}
    (hold : guards[index]? = some old) (test : Guard → Bool) (new : Guard) :
    (guards.set index new).countP test + (if test old then 1 else 0) =
      guards.countP test + if test new then 1 else 0 := by
  induction guards generalizing index with
  | nil => simp at hold
  | cons head tail ih =>
      cases index with
      | zero =>
          obtain rfl : head = old := by simpa using hold
          simp only [List.set_cons_zero, List.countP_cons]
          omega
      | succ index =>
          have := ih (by simpa using hold : tail[index]? = some old)
          simp only [List.set_cons_succ, List.countP_cons]
          omega

/-- One guard moves. -/
theorem GuardInv.moveGuard (hinv : GuardInv participants before)
    (hhold : GuardsHold before action)
    (hstep : (pool participants).step before action = some (after, event))
    (hcaller : action.caller = none) {index : ℕ} {old new : Guard}
    (hold : before.guards[index]? = some old)
    (hguards : after.guards = before.guards.set index new)
    (hepoch : after.control.hotSpinEpoch = before.control.hotSpinEpoch)
    (hpool : new.onPool = old.onPool) (hsame : new.epoch = old.epoch)
    (hforeign : old.onPool = false → new.pc = .alive ∨ new.pc = .destroyed)
    (hengaged : new.engaged = true → old.engaged = true)
    (hsaw : old.onPool = true → ∀ slot, 1 ≤ slot → slot < participants →
      new.pc.sawAck slot → old.pc.sawAck slot ∨
        old.epoch ≤ (before.slots slot).hotSpinEpoch)
    (hdepth : after.control.hotSpinDepth + (if old.raised then 1 else 0) =
      before.control.hotSpinDepth + if new.raised then 1 else 0)
    (hready : old.ready = true → new.ready = true ∨
      ∃ thread, action = .disengage thread index) :
    GuardInv participants after := by
  have hepochs := step_epochs hstep
  have hmem : old ∈ before.guards := List.mem_of_getElem? hold
  have hproducer := producer_of_caller hstep hcaller
  have hcases : ∀ guard ∈ after.guards, guard ∈ before.guards ∨ guard = new := by
    rw [hguards]
    exact fun guard => List.mem_or_eq_of_mem_set
  have hcount := countP_set hold Guard.raised new
  have holdDepth := hinv.depth
  refine ⟨by rw [hguards]; omega, ?_, ?_, ?_, ?_, ?_, ?_, ?_⟩
  · intro guard hguard hother
    rcases hcases guard hguard with hbefore | rfl
    · exact hinv.foreign guard hbefore hother
    · exact hforeign (hpool ▸ hother)
  · intro guard hguard hown
    rw [hepoch]
    rcases hcases guard hguard with hbefore | rfl
    · exact hinv.below guard hbefore hown
    · rw [hsame]
      exact hinv.below old hmem (hpool ▸ hown)
  · rw [hepoch]
    exact hinv.own_below hepochs
  · rw [hepoch]
    exact fun slot epoch reload => hinv.storing_step hepochs
  · intro guard hguard hengage slot hacked
    rcases hcases guard hguard with hbefore | rfl
    · exact hinv.unparked_step hepochs hhold hbefore hengage hacked
    · exact hinv.unparked_step hepochs hhold hmem (hengaged hengage)
        (hsame ▸ hacked)
  · intro guard hguard hown slot hpos hslot hseen
    refine le_trans ?_ (hinv.own_le hepochs slot)
    rcases hcases guard hguard with hbefore | rfl
    · exact hinv.acks guard hbefore hown slot hpos hslot hseen
    · rw [hsame]
      rcases hsaw (hpool ▸ hown) slot hpos hslot hseen with hearlier | hacked
      · exact hinv.acks old hmem (hpool ▸ hown) slot hpos hslot hearlier
      · exact hacked
  · intro thread hlow
    rw [hproducer] at hlow
    obtain ⟨hlength, -⟩ := List.getElem?_eq_some_iff.1 hold
    have hkept : ∀ other guard, other ≠ index →
        before.guards[other]? = some guard → guard ∈ after.guards := by
      intro other guard hother hguard
      rw [hguards]
      exact List.mem_of_getElem?
        (by rw [List.getElem?_set_ne (Ne.symm hother), hguard])
    obtain ⟨guard, hguard, hlive⟩ := hinv.lowLatency thread hlow
    obtain ⟨other, hother⟩ := List.mem_iff_getElem?.1 hguard
    by_cases hmoved : other = index
    · obtain rfl : old = guard := by
        rw [hmoved, hold] at hother
        exact Option.some.inj hother
      rcases hready hlive with hnew | ⟨destroyer, hdestroy⟩
      · refine ⟨new, ?_, hnew⟩
        rw [hguards]
        exact List.mem_of_getElem? (List.getElem?_set_self hlength)
      · obtain ⟨second, rescue, hsecond, hrescue, hlives⟩ :=
          hhold.outlived destroyer index hdestroy ⟨thread, hlow⟩
        exact ⟨rescue, hkept second rescue hsecond hrescue, hlives⟩
    · exact ⟨guard, hkept other guard hmoved hother, hlive⟩

/-- A guard takes its epoch: nobody has acknowledged that one yet. -/
theorem GuardInv.engage (hinv : GuardInv participants before)
    (hhold : GuardsHold before action) {thread : ℕ} {onPool : Bool}
    (haction : action = .engage thread onPool)
    (hstep : (pool participants).step before action = some (after, event)) :
    GuardInv participants after := by
  have hepochs := step_epochs hstep
  have hproducer := producer_of_caller hstep (by rw [haction]; rfl)
  subst haction
  simp only [pool, Option.some.injEq, Prod.mk.injEq] at hstep
  obtain ⟨rfl, rfl⟩ := hstep
  have hlow : ∀ caller,
      ((before.engage thread onPool).producer caller).lowLatency = true →
      (before.engage thread onPool).guarded := by
    intro caller hlow
    rw [hproducer] at hlow
    obtain ⟨guard, hguard, hready⟩ := hinv.lowLatency caller hlow
    refine ⟨guard, ?_, hready⟩
    cases onPool <;> exact List.mem_append_left _ hguard
  have hown := hinv.own_le hepochs
  have hbound := hinv.own_below hepochs
  cases onPool with
  | false =>
      have hcases : ∀ guard ∈ (before.engage thread false).guards,
          guard.onPool = true → guard ∈ before.guards := by
        intro guard hguard hpool
        rcases List.mem_append.1 hguard with hold | hnew
        · exact hold
        · obtain rfl := List.mem_singleton.1 hnew
          simp at hpool
      refine ⟨?_, ?_, fun guard hguard hpool => hinv.below guard
          (hcases guard hguard hpool) hpool, hbound,
        fun slot epoch reload => hinv.storing_step hepochs, ?_, ?_, hlow⟩
      · have := hinv.depth
        simpa [State.engage, Guard.raised] using this
      · intro guard hguard hother
        rcases List.mem_append.1 hguard with hold | hnew
        · exact hinv.foreign guard hold hother
        · obtain rfl := List.mem_singleton.1 hnew
          exact .inl rfl
      · intro guard hguard hengaged slot hacked
        have hpool : guard.onPool = true := by
          simp only [Guard.engaged, Bool.and_eq_true] at hengaged
          exact hengaged.1
        exact hinv.unparked_step hepochs hhold (hcases guard hguard hpool)
          hengaged hacked
      · exact fun guard hguard hpool slot hpos hslot hsaw =>
          (hinv.acks guard (hcases guard hguard hpool) hpool slot hpos hslot
            hsaw).trans (hown slot)
  | true =>
      have hcases : ∀ guard ∈ (before.engage thread true).guards,
          guard ∈ before.guards ∨
            guard.epoch = before.control.hotSpinEpoch + 1 ∧
              guard.pc = .raise ∧ guard.onPool = true := by
        intro guard hguard
        rcases List.mem_append.1 hguard with hold | hnew
        · exact .inl hold
        · obtain rfl := List.mem_singleton.1 hnew
          exact .inr ⟨rfl, rfl, rfl⟩
      refine ⟨?_, ?_, ?_, fun slot => (hbound slot).trans (Nat.le_succ _),
        fun slot epoch reload hpc => ?_, ?_, ?_, hlow⟩
      · have := hinv.depth
        simpa [State.engage, Guard.raised] using this
      · intro guard hguard hother
        rcases hcases guard hguard with hold | ⟨-, -, hown⟩
        · exact hinv.foreign guard hold hother
        · simp [hown] at hother
      · intro guard hguard hpool
        rcases hcases guard hguard with hold | ⟨hepoch, -⟩
        · exact (hinv.below guard hold hpool).trans (Nat.le_succ _)
        · exact hepoch.le
      · obtain ⟨hle, hbelow⟩ := hinv.storing_step hepochs hpc
        exact ⟨hle, hbelow.trans (Nat.le_succ _)⟩
      · intro guard hguard hengaged slot hacked
        rcases hcases guard hguard with hold | ⟨hepoch, -⟩
        · exact hinv.unparked_step hepochs hhold hold hengaged hacked
        · have := hbound slot
          omega
      · intro guard hguard hpool slot hpos hslot hsaw
        rcases hcases guard hguard with hold | ⟨-, hraise, -⟩
        · exact (hinv.acks guard hold hpool slot hpos hslot hsaw).trans
            (hown slot)
        · rw [hraise] at hsaw
          exact absurd hsaw id

theorem GuardInv.advanceGuard (hinv : GuardInv participants before)
    (hhold : GuardsHold before action) {index : ℕ}
    (haction : action = .advanceGuard index)
    (hstep : (pool participants).step before action = some (after, event)) :
    GuardInv participants after := by
  have hmove := fun {old new : Guard} (hold : before.guards[index]? = some old)
      (hguards : after.guards = before.guards.set index new) hepoch hpool hsame hforeign hengaged hsaw hdepth
      (hready : old.ready = false) =>
    hinv.moveGuard hhold hstep (by rw [haction]; rfl) hold hguards
      hepoch hpool hsame hforeign hengaged hsaw hdepth (by simp [hready])
  rw [haction] at hstep
  simp only [pool] at hstep
  cases hguard : before.guards[index]? with
  | none => simp [stepGuard, hguard] at hstep
  | some guard =>
      have hmem := List.mem_of_getElem? hguard
      have hforeign := hinv.foreign guard hmem
      cases hpc : guard.pc <;>
        simp only [stepGuard, hguard, hpc, reduceCtorEq] at hstep
      case raise =>
        have hown : guard.onPool = true := by simpa [hpc] using hforeign
        obtain ⟨rfl, rfl⟩ := by simpa using hstep
        refine hmove hguard rfl rfl rfl rfl ?_ ?_ ?_ ?_ ?_
        · simp [hown]
        · simp [Guard.engaged, hpc, hown]
        · intro _ slot hpos _ hsaw
          exact absurd hsaw (Nat.not_lt.2 hpos)
        · simp [State.setGuard, Guard.raised, hpc, hown]
        · simp [Guard.ready, hpc]
      case awaitAck slot =>
        have hown : guard.onPool = true := by simpa [hpc] using hforeign
        split at hstep
        next hslot =>
          split at hstep
          next hacked =>
            obtain ⟨rfl, rfl⟩ := by simpa using hstep
            refine hmove hguard rfl rfl rfl rfl ?_ ?_ ?_ ?_ ?_
            · simp [hown]
            · simp [Guard.engaged, hpc, hown]
            · intro _ index _ _ hsaw
              rw [hpc]
              rcases Nat.lt_succ_iff_lt_or_eq.1 hsaw with hearlier | rfl
              · exact .inl hearlier
              · exact .inr hacked
            · simp [State.setGuard, Guard.raised, hpc, hown]
            · simp [Guard.ready, hpc]
          next => simp at hstep
        next hlast =>
          obtain ⟨rfl, rfl⟩ := by simpa using hstep
          refine hmove hguard rfl rfl rfl rfl ?_ ?_ ?_ ?_ ?_
          · simp
          · simp [Guard.engaged, hpc, hown]
          · intro _ index _ hindex _
            rw [hpc]
            exact .inl (hindex.trans_le (Nat.not_lt.1 hlast))
          · simp [State.setGuard, Guard.raised, hpc, hown]
          · simp [Guard.ready, hpc]
      all_goals
        have hown : guard.onPool = true := by simpa [hpc] using hforeign
        obtain ⟨rfl, rfl⟩ := by simpa using hstep
        refine hmove hguard rfl rfl rfl rfl ?_ ?_ ?_ ?_ ?_
        · simp [hown]
        · simp [Guard.engaged, hpc, hown]
        · intro _ slot _ _ hsaw
          rw [hpc]
          exact .inl hsaw
        · simp [State.setGuard, State.storeWord, State.releaseAll,
            Guard.raised, hpc, hown]
        · simp [Guard.ready, hpc]

theorem GuardInv.retryWake (hinv : GuardInv participants before)
    (hhold : GuardsHold before action) {index : ℕ}
    (haction : action = .retryWake index)
    (hstep : (pool participants).step before action = some (after, event)) :
    GuardInv participants after := by
  have hmoved := hstep
  rw [haction] at hmoved
  simp only [pool] at hmoved
  split at hmoved
  next onPool epoch prevOwner slot hguard =>
    obtain ⟨rfl, rfl⟩ := by simpa using hmoved
    have hforeign := hinv.foreign _ (List.mem_of_getElem? hguard)
    refine hinv.moveGuard hhold hstep (by rw [haction]; rfl) hguard rfl rfl rfl
      rfl ?_ ?_ ?_ ?_ ?_
    · simpa using hforeign
    · simp [Guard.engaged]
    · exact fun _ _ _ _ hsaw => .inl hsaw
    · simp [State.setGuard, Guard.raised]
    · simp [Guard.ready]
  next => simp at hmoved

theorem GuardInv.disengage (hinv : GuardInv participants before)
    (hhold : GuardsHold before action) {thread index : ℕ}
    (haction : action = .disengage thread index)
    (hstep : (pool participants).step before action = some (after, event)) :
    GuardInv participants after := by
  have hmoved := hstep
  rw [haction] at hmoved
  simp only [pool] at hmoved
  split at hmoved
  next guard hguard =>
    split at hmoved
    next halive =>
      obtain ⟨rfl, rfl⟩ := by simpa using hmoved
      have hmem := List.mem_of_getElem? hguard
      refine hinv.moveGuard hhold hstep (by rw [haction]; rfl) hguard rfl ?_
        rfl rfl ?_ ?_ ?_ ?_ ?_
      · cases hpool : guard.onPool <;>
          simp [State.disengage, State.setGuard, hpool]
      · simp
      · simp [Guard.engaged]
      · exact fun _ _ _ _ hsaw => absurd hsaw id
      · cases hpool : guard.onPool with
        | false =>
            simp [State.disengage, State.setGuard, Guard.raised, hpool]
        | true =>
            have hcount : 0 < before.guards.countP Guard.raised :=
              List.countP_pos_iff.2 ⟨guard, hmem, by
                simp [Guard.raised, hpool, halive]⟩
            have := hinv.depth
            simp [State.disengage, State.setGuard, Guard.raised, hpool, halive]
            omega
      · exact fun _ => .inr ⟨thread, haction⟩
    next => simp at hmoved
  next => simp at hmoved

theorem guardInv_step (hinv : GuardInv participants before)
    (hhold : GuardsHold before action)
    (hstep : (pool participants).step before action = some (after, event)) :
    GuardInv participants after := by
  cases hguard : action.onGuard with
  | false => exact hinv.keep hhold hstep hguard
  | true =>
      cases haction : action <;>
        simp only [haction, Action.onGuard, reduceCtorEq] at hguard
      case engage thread onPool => exact hinv.engage hhold haction hstep
      case advanceGuard index => exact hinv.advanceGuard hhold haction hstep
      case retryWake index => exact hinv.retryWake hhold haction hstep
      case disengage thread index => exact hinv.disengage hhold haction hstep

end Citor.ParkingPool
