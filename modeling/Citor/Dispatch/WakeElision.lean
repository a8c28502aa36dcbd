import Citor.Dispatch.GuardInvariant

/-!
# Dispatches that skip the wake

A dispatch skips the futex bump and the wake when its pre-wake probe saw every
worker done or when it decided that low-latency mode is active.  The probe
covers the slots of a 64-bit mask, and the decision reads a depth that the
workers read at another moment.
-/

namespace Citor.ParkingPool

open Citor.Interleaving
open Citor.WorkerLoop
open WorkerSlots (MailboxWord)

/-- The call runs a dispatch whose wake it skipped. -/
def ProducerPc.elided : ProducerPc → Bool
  | .body _ elided | .join _ elided _ | .coverBody _ elided _
  | .coverStamp _ elided _ | .coverMark _ elided _ => elided
  | _ => false

/-- While a dispatch whose wake was skipped is in flight, no worker is parked,
or will park on the word as it is, with a published phase it has not
processed; and the join waits for no parked worker at all. -/
structure ElisionSound (participants : ℕ) (state : State) : Prop where
  awake : ∀ thread, (state.producer thread).elided = true →
    ∀ slot, 1 ≤ slot → slot < participants →
      ¬ ((state.slots slot).Unprocessed ∧
        (state.slots slot).Parked state.control.futexWord)
  joined : ∀ thread dispatch slot,
    state.producer thread = .join dispatch true slot → slot < participants →
    (state.slots slot).mailbox.withoutAck ≠ dispatch.doneSentinel →
    ¬ (state.slots slot).Parked state.control.futexWord

/-! ## The failing schedule -/

/-- Thread 0 has a guard alive when thread 1's fork-join decides for
low-latency mode, and destroys it before thread 1 publishes; the worker parks
in between. -/
def guardEndsEarly : List Action :=
  List.flatten
    [[.engage 0 true], List.replicate 4 (.advanceGuard 0),
      List.replicate 5 (.worker 1), List.replicate 2 (.advanceGuard 0),
      [.dispatch 1 lockedRequest], List.replicate 3 (.advance 1),
      [.disengage 0 0, .leaveSpin 1], List.replicate 4 (.worker 1),
      List.replicate 6 (.advance 1)]

/-- The fork-join was decided to run without a wake, and its join waits for a
worker that sleeps. -/
theorem guardEndsEarly_not_elisionSound :
    ¬ ∀ participants trace state,
      Reaches (pool participants) start trace state →
        ElisionSound participants state := by
  intro hclaim
  obtain ⟨trace, state, run, hstuck⟩ :=
    reaches_of_check (pool 2) start guardEndsEarly
      (fun _ state => decide ((state.producer 1).elided = true ∧
        (state.slots 1).Unprocessed ∧ (state.slots 1).pc = .asleep))
      (by decide +kernel)
  obtain ⟨helided, hnew, hasleep⟩ := by simpa using hstuck
  exact (hclaim 2 trace state run).awake 1 helided 1 le_rfl (by decide)
    ⟨hnew, .inl hasleep⟩

/-! ## Runs whose elisions are safe -/

/-- Sections keep apart, guards hold, and a probe that saw its mask done finds
every slot beyond the mask done as well. -/
structure ElisionSafe (participants : ℕ) (state : State) (action : Action) :
    Prop where
  apart : SectionsApart state action
  guards : GuardsHold state action
  probed : ∀ thread dispatch, action = .advance thread →
    state.producer thread = .probe dispatch [] →
    ∀ slot, 64 ≤ slot → slot < participants →
      (state.slots slot).mailbox.withoutAck = dispatch.doneSentinel

/-- Between the publication and the join. -/
def ProducerPc.unjoined : ProducerPc → Bool
  | .publish _ _ | .probe _ _ | .loadWord _ | .storeWord _ _ | .wake _
  | .body _ _ => true
  | _ => false

/-- What holds of a call, given the slots, where elisions are safe. -/
structure ElisionCall (participants : ℕ) (slots : ℕ → Slot)
    (pc : ProducerPc) : Prop where
  answered : pc.unjoined = true → ∀ slot, 1 ≤ slot → slot < participants →
    pc.awaits slot → (slots slot).mailbox.done = true → (slots slot).Finished
  probed : ∀ dispatch pendingProbe, pc = .probe dispatch pendingProbe →
    ∀ slot, 1 ≤ slot → slot < participants → slot < 64 →
      slot ∉ pendingProbe → (slots slot).mailbox.done = true
  finished : pc.elided = true → pc.lowLatency = false →
    ∀ slot, 1 ≤ slot → slot < participants → (slots slot).Finished

structure ElisionInv (participants : ℕ) (state : State) : Prop where
  pool : PoolInv participants state
  guards : GuardInv participants state
  calls : ∀ thread,
    ElisionCall participants state.slots (state.producer thread)

variable {participants : ℕ} {before after : State} {action : Action}
variable {event : Option Event} {thread : ℕ} {pc : ProducerPc}
variable {slots moved : ℕ → Slot}

/-- A call that is neither waking nor elided. -/
theorem ElisionCall.plain (hunjoined : pc.unjoined = false)
    (helided : pc.elided = false) : ElisionCall participants slots pc where
  answered := by simp [hunjoined]
  probed := by
    rintro dispatch pendingProbe rfl
    simp [ProducerPc.unjoined] at hunjoined
  finished := by simp [helided]

theorem ElisionCall.of_outside (houtside : pc.inSection = false) :
    ElisionCall participants slots pc := by
  refine .plain ?_ ?_ <;>
    cases pc <;>
      first
      | rfl
      | simp [ProducerPc.inSection, ProducerPc.dispatching] at houtside

theorem ElisionCall.evolve (hcall : ElisionCall participants slots pc)
    (hevolves : ∀ slot, Evolves (slots slot) (moved slot)) :
    ElisionCall participants moved pc where
  answered := by
    intro hunjoined slot hpos hslot hawaits hdone
    rcases (hevolves slot).answered hdone with hbefore | hfinished
    · exact (hevolves slot).finished
        (hcall.answered hunjoined slot hpos hslot hawaits hbefore)
    · exact hfinished
  probed := fun dispatch pendingProbe hpc slot hpos hslot hmask hseen =>
    (hevolves slot).done
      (hcall.probed dispatch pendingProbe hpc slot hpos hslot hmask hseen)
  finished := fun helided hlow slot hpos hslot => (hevolves slot).finished
    (hcall.finished helided hlow slot hpos hslot)

/-- From one place between publication and join to another that is no probe
and elides nothing but what was elided. -/
theorem ElisionCall.next {old : ProducerPc}
    (hcall : ElisionCall participants slots old)
    (hunjoined : pc.unjoined = true → old.unjoined = true ∧
      ∀ slot, slot < participants → pc.awaits slot → old.awaits slot)
    (hprobe : ∀ dispatch pendingProbe, pc ≠ .probe dispatch pendingProbe)
    (helided : pc.elided = true → pc.lowLatency = false →
      old.elided = true ∧ old.lowLatency = false) :
    ElisionCall participants slots pc where
  answered := fun hnew slot hpos hslot hawaits =>
    hcall.answered (hunjoined hnew).1 slot hpos hslot
      ((hunjoined hnew).2 slot hslot hawaits)
  probed := fun dispatch pendingProbe hpc =>
    absurd hpc (hprobe dispatch pendingProbe)
  finished := fun hnew hlow =>
    hcall.finished (helided hnew hlow).1 (helided hnew hlow).2

theorem elisionInv_start (participants : ℕ) :
    ElisionInv participants start where
  pool := poolInv_start participants
  guards := guardInv_start participants
  calls := fun _ => .of_outside rfl

/-- The slots that the probe scans are those below 64. -/
theorem mem_pendingMask {slot : ℕ} (hpos : 1 ≤ slot)
    (hslot : slot < participants) (hmask : slot < 64) :
    slot ∈ pendingMask participants := by
  simp [pendingMask]
  omega

/-- A slot that the join skips was stamped by its worker. -/
theorem not_published_of_finished {slot : Slot} {dispatch : Dispatch}
    (hfinished : slot.Finished) : slot.mailbox ≠ dispatch.published := by
  intro hmailbox
  have hdone := hfinished.1
  simp [hmailbox, Dispatch.published,
    WorkerSlots.Dispatch.publishedWith] at hdone

/-- A call that is neither at its probe nor elided. -/
theorem ElisionCall.ofAnswered
    (hanswered : pc.unjoined = true → ∀ slot, 1 ≤ slot →
      slot < participants → pc.awaits slot →
      (slots slot).mailbox.done = true → (slots slot).Finished)
    (hprobe : ∀ dispatch pendingProbe, pc ≠ .probe dispatch pendingProbe)
    (helided : pc.elided = false) : ElisionCall participants slots pc where
  answered := hanswered
  probed := fun dispatch pendingProbe hpc =>
    absurd hpc (hprobe dispatch pendingProbe)
  finished := by simp [helided]

/-- Behind the publication. -/
theorem ElisionCall.behindPublish {dispatch : Dispatch} {slot : ℕ}
    (hcall : ElisionCall participants slots (.publish dispatch slot))
    (hlast : ¬ slot < participants) :
    ElisionCall participants slots
      (ParkingPool.behindPublish participants dispatch) := by
  have hall : ∀ index, index < participants →
      (ProducerPc.publish dispatch slot).awaits index :=
    fun index hindex => hindex.trans_le (Nat.not_lt.1 hlast)
  have hanswered := hcall.answered rfl
  unfold ParkingPool.behindPublish
  split
  next hlow =>
    refine ⟨fun _ index hpos hindex _ => hanswered index hpos hindex
      (hall index hindex), by simp, fun _ hoff => ?_⟩
    simp [ProducerPc.lowLatency, ProducerPc.dispatching, hlow] at hoff
  next =>
    split
    next =>
      refine ⟨fun _ index hpos hindex _ => hanswered index hpos hindex
        (hall index hindex), ?_, fun helided => Bool.noConfusion helided⟩
      intro working pendingProbe hprobe index hpos hindex hmask hseen
      obtain ⟨-, rfl⟩ := ProducerPc.probe.inj hprobe
      exact absurd (mem_pendingMask hpos hindex hmask) hseen
    next =>
      exact .ofAnswered (fun _ index hpos hindex _ =>
        hanswered index hpos hindex (hall index hindex)) (by simp) rfl

/-! ## Steps -/

theorem moveCall_calls {producer : ℕ → ProducerPc}
    (hothers : ∀ other, other ≠ thread →
      ElisionCall participants slots (producer other))
    (hmoved : ElisionCall participants slots pc) (other : ℕ) :
    ElisionCall participants slots (Function.update producer thread pc other) := by
  by_cases hsame : other = thread
  · subst hsame
    simpa using hmoved
  · simpa [hsame] using hothers other hsame

/-- Everybody else is outside of the dispatch section of a publishing or
joining thread. -/
theorem PoolInv.others_outside (hinv : PoolInv participants before)
    (hinside : (before.producer thread).inSection = true) {other : ℕ}
    (hother : other ≠ thread) :
    (before.producer other).inSection = false := by
  by_contra hboth
  exact hother (hinv.solo other thread (by simpa using hboth) hinside)

theorem elisionCalls_stepProducer (hinv : ElisionInv participants before)
    (hsafe : ElisionSafe participants before (.advance thread))
    (hstep : stepProducer participants before thread = some (after, event))
    (other : ℕ) :
    ElisionCall participants after.slots (after.producer other) := by
  have hcall := hinv.calls thread
  have hothers : ∀ other, other ≠ thread →
      ElisionCall participants before.slots (before.producer other) :=
    fun other _ => hinv.calls other
  cases hpc : before.producer thread <;>
    simp only [stepProducer, hpc, reduceCtorEq] at hstep
  case drain site lowLatencyActive =>
    repeat' split at hstep
    all_goals simp only [Option.some.injEq, Prod.mk.injEq, reduceCtorEq] at hstep
    all_goals obtain ⟨rfl, rfl⟩ := hstep
    · exact moveCall_calls hothers (.plain rfl rfl) other
    · refine moveCall_calls hothers ?_ other
      cases site with
      | entry request => exact .plain rfl rfl
      | publication dispatch =>
          refine .ofAnswered (fun _ slot hpos _ hawaits => ?_)
            (by simp [behindDrain]) rfl
          exact absurd hawaits (Nat.not_lt.2 hpos)
  case lease request =>
    split at hstep
    all_goals
      obtain ⟨rfl, rfl⟩ := by simpa using hstep
      refine moveCall_calls hothers ?_ other
    · unfold behindLease
      split <;> exact .plain rfl rfl
    · exact .plain rfl rfl
  case lock request =>
    split at hstep
    next => simp at hstep
    next =>
      obtain ⟨rfl, rfl⟩ := by simpa using hstep
      refine moveCall_calls hothers ?_ other
      unfold behindLease
      split <;> exact .plain rfl rfl
  case publish dispatch slot =>
    rw [hpc] at hcall
    split at hstep
    next hslot =>
      obtain ⟨rfl, rfl⟩ := by simpa using hstep
      refine moveCall_calls (fun other hother => .of_outside
        (hinv.pool.others_outside (by rw [hpc]; rfl) hother)) ?_ other
      refine .ofAnswered (fun _ index hpos hindex hawaits hdone => ?_)
        (by simp) rfl
      by_cases hsame : index = slot
      · subst hsame
        simp [State.setSlot, State.setProducer, Dispatch.published,
          WorkerSlots.Dispatch.publishedWith] at hdone
      · simp only [State.setSlot, State.setProducer,
          Function.update_of_ne hsame] at hdone ⊢
        exact hcall.answered rfl index hpos hindex
          (Nat.lt_of_le_of_ne (Nat.lt_succ_iff.1 hawaits) hsame) hdone
    next hlast =>
      obtain ⟨rfl, rfl⟩ := by simpa using hstep
      exact moveCall_calls hothers (hcall.behindPublish hlast) other
  case probe dispatch pendingProbe =>
    split at hstep
    next hempty =>
      obtain ⟨rfl, rfl⟩ := by simpa using hstep
      rw [hpc] at hcall
      subst hempty
      refine moveCall_calls hothers ?_ other
      refine ⟨hcall.answered, by simp, fun _ _ slot hpos hslot => ?_⟩
      refine hcall.answered rfl slot hpos hslot trivial ?_
      by_cases hmask : slot < 64
      · exact hcall.probed dispatch [] rfl slot hpos hslot hmask (by simp)
      · exact done_of_withoutAck (hsafe.probed thread dispatch rfl hpc slot
          (Nat.not_lt.1 hmask) hslot)
    next => simp at hstep
  case coverStamp dispatch elided slot =>
    rw [hpc] at hcall
    have hplace := hinv.pool.calls thread
    rw [hpc] at hplace
    have hpos := hplace.positive slot rfl
    split at hstep
    next hmailbox =>
      obtain ⟨rfl, rfl⟩ := by simpa using hstep
      refine moveCall_calls (fun other hother => .of_outside
        (hinv.pool.others_outside (by rw [hpc]; rfl) hother)) ?_ other
      -- a finished slot cannot be covered: nothing but low latency was elided
      have hcovered : elided = true → dispatch.lowLatencyActive = false →
          slot < participants → False := fun helided hlow hslot =>
        not_published_of_finished (hcall.finished helided hlow slot hpos hslot)
          hmailbox
      refine ⟨?_, ?_, fun helided hlow index hpos hindex => ?_⟩
      · split <;> simp [ProducerPc.unjoined]
      · split <;> simp
      · by_cases hsame : index = slot
        · subst hsame
          cases hreuse : dispatch.reuseSafe <;>
            simp only [hreuse, if_true, reduceIte, Bool.false_eq_true]
              at helided hlow <;>
            exact (hcovered helided hlow hindex).elim
        · simp only [State.setSlot, State.setProducer,
            Function.update_of_ne hsame]
          refine hcall.finished ?_ ?_ index hpos hindex <;>
            cases hreuse : dispatch.reuseSafe <;>
            simp only [hreuse, if_true, reduceIte, Bool.false_eq_true]
              at helided hlow <;>
            assumption
    next =>
      obtain ⟨rfl, rfl⟩ := by simpa using hstep
      refine moveCall_calls hothers ?_ other
      exact hcall.next (by simp [ProducerPc.unjoined]) (by simp)
        fun helided hlow => ⟨helided, hlow⟩
  case drainStore site lowLatencyActive word =>
    obtain ⟨rfl, rfl⟩ := by simpa using hstep
    exact moveCall_calls hothers (.plain rfl rfl) other
  case join dispatch elided slot =>
    rw [hpc] at hcall
    repeat' split at hstep
    all_goals simp only [Option.some.injEq, Prod.mk.injEq, reduceCtorEq] at hstep
    all_goals obtain ⟨rfl, rfl⟩ := hstep
    · refine moveCall_calls hothers ?_ other
      exact hcall.next (by simp [ProducerPc.unjoined]) (by simp)
        fun helided hlow => ⟨helided, hlow⟩
    · exact moveCall_calls hothers (.plain rfl rfl) other
  case body dispatch elided | coverBody dispatch elided slot
      | coverMark dispatch elided slot =>
    rw [hpc] at hcall
    obtain ⟨rfl, rfl⟩ := by simpa using hstep
    refine moveCall_calls hothers ?_ other
    exact hcall.next (by simp [ProducerPc.unjoined]) (by simp)
      fun helided hlow => ⟨helided, hlow⟩
  case loadWord dispatch | storeWord dispatch word =>
    rw [hpc] at hcall
    obtain ⟨rfl, rfl⟩ := by simpa using hstep
    refine moveCall_calls hothers ?_ other
    exact hcall.next (fun _ => ⟨rfl, fun _ _ => id⟩) (by simp)
      (by simp [ProducerPc.elided])
  all_goals
    obtain ⟨rfl, rfl⟩ := by simpa using hstep
    exact moveCall_calls hothers (.plain rfl rfl) other

theorem setProducer_own (state : State) (thread : ℕ) (pc : ProducerPc) :
    (state.setProducer thread pc).producer thread = pc :=
  Function.update_self _ _ _

/-- A call's own action that is no atomic operation of its own. -/
theorem elisionCall_own (hinv : ElisionInv participants before)
    (hstep : (pool participants).step before action = some (after, event))
    (hcaller : action.caller = some thread)
    (haction : ∀ caller, action ≠ .advance caller) :
    ElisionCall participants before.slots (after.producer thread) := by
  have hcall := hinv.calls thread
  cases action <;> simp only [Action.caller, Option.some.injEq, reduceCtorEq]
    at hcaller
  all_goals subst hcaller
  all_goals simp only [pool] at hstep
  case advance caller => exact absurd rfl (haction caller)
  case dispatch caller request =>
    split at hstep
    next =>
      obtain ⟨rfl, rfl⟩ := by simpa using hstep
      rw [setProducer_own]
      split <;> exact .plain rfl rfl
    next => simp at hstep
  case collect caller slot =>
    repeat' split at hstep
    all_goals simp only [Option.some.injEq, Prod.mk.injEq, reduceCtorEq] at hstep
    obtain ⟨rfl, rfl⟩ := hstep
    exact hcall
  case probeDone caller slot =>
    split at hstep
    next dispatch pendingProbe hpc =>
      split at hstep
      next hdone =>
        obtain ⟨rfl, rfl⟩ := by simpa using hstep
        rw [hpc] at hcall
        rw [setProducer_own]
        refine ⟨hcall.answered, ?_, by simp [ProducerPc.elided]⟩
        intro working pending hprobe index hpos hindex hmask hseen
        obtain ⟨-, rfl⟩ := ProducerPc.probe.inj hprobe
        by_cases hsame : index = slot
        · exact hsame ▸ done_of_withoutAck hdone
        · exact hcall.probed dispatch pendingProbe rfl index hpos hindex hmask
            (by simpa [hsame] using hseen)
      next => simp at hstep
    next => simp at hstep
  case giveUp caller =>
    split at hstep
    next dispatch slot rest hpc =>
      obtain ⟨rfl, rfl⟩ := by simpa using hstep
      rw [hpc] at hcall
      rw [setProducer_own]
      exact hcall.next (fun _ => ⟨rfl, fun _ _ => id⟩) (by simp)
        (by simp [ProducerPc.elided])
    next => simp at hstep
  case cover caller =>
    split at hstep
    next dispatch elided slot hpc =>
      split at hstep
      next =>
        obtain ⟨rfl, rfl⟩ := by simpa using hstep
        rw [hpc] at hcall
        rw [setProducer_own]
        exact hcall.next (by simp [ProducerPc.unjoined]) (by simp)
          fun helided hlow => ⟨helided, hlow⟩
      next => simp at hstep
    next => simp at hstep
  case wakeTwo caller released =>
    split at hstep
    next next hnext =>
      split at hstep
      next =>
        obtain ⟨rfl, rfl⟩ := by simpa using hstep
        rw [setProducer_own]
        cases hpc : before.producer caller <;>
          simp only [behindWake, hpc, Option.some.injEq, reduceCtorEq] at hnext
        all_goals subst hnext
        all_goals rw [hpc] at hcall
        case drainWake site lowLatencyActive => exact .plain rfl rfl
        case wake dispatch =>
          exact hcall.next (fun _ => ⟨rfl, fun _ _ => id⟩) (by simp)
            (by simp [ProducerPc.elided])
      next => simp at hstep
    next => simp at hstep

theorem elisionInv_step (hinv : ElisionInv participants before)
    (hsafe : ElisionSafe participants before action)
    (hstep : (pool participants).step before action = some (after, event)) :
    ElisionInv participants after where
  pool := poolInv_step hinv.pool hsafe.apart hstep
  guards := guardInv_step hinv.guards hsafe.guards hstep
  calls := by
    intro thread
    by_cases hadvance : ∃ caller, action = .advance caller
    · obtain ⟨caller, rfl⟩ := hadvance
      exact elisionCalls_stepProducer hinv hsafe hstep thread
    · have haction : ∀ caller, action ≠ .advance caller :=
        fun caller hsame => hadvance ⟨caller, hsame⟩
      refine ElisionCall.evolve ?_ (step_slots hinv.pool hstep haction)
      by_cases hcaller : action.caller = some thread
      · exact elisionCall_own hinv hstep hcaller haction
      · rw [step_other hstep hcaller]
        exact hinv.calls thread

/-! ## Safe elisions -/

theorem parkPath_of_parked {slot : Slot} {futexWord : ℕ}
    (hparked : slot.Parked futexWord) : parkPath slot.pc = true := by
  rcases hparked with hpc | hpc <;> simp [hpc, parkPath]

/-- A published slot that is done is what the join waits for. -/
theorem withoutAck_of_done {mailbox : Mailbox} {dispatch : Dispatch}
    (hphase : mailbox.seenPhase = dispatch.published.seenPhase)
    (hdone : mailbox.done = true) :
    mailbox.withoutAck = dispatch.doneSentinel := by
  cases mailbox
  simp_all [MailboxWord.seenPhase, MailboxWord.withoutAck,
    MailboxWord.doneVal, Dispatch.doneSentinel, Dispatch.published,
    WorkerSlots.Dispatch.publishedWith]

/-- Low-latency dispatches find every worker off the park path. -/
theorem ElisionInv.unparked (hinv : ElisionInv participants before)
    (hlow : (before.producer thread).lowLatency = true) {slot : ℕ}
    (hpos : 1 ≤ slot) (hslot : slot < participants) :
    ¬ (before.slots slot).Parked before.control.futexWord := by
  intro hparked
  have hoff := hinv.guards.unparked_of_guarded
    (hinv.guards.lowLatency thread hlow) hpos hslot
  rw [parkPath_of_parked hparked] at hoff
  cases hoff

theorem ElisionInv.sound (hinv : ElisionInv participants before) :
    ElisionSound participants before where
  awake := by
    intro thread helided slot hpos hslot ⟨hnew, hparked⟩
    cases hlow : (before.producer thread).lowLatency with
    | true => exact hinv.unparked hlow hpos hslot hparked
    | false =>
        exact ((hinv.calls thread).finished helided hlow slot hpos hslot).2.1
          hnew
  joined := by
    intro thread dispatch slot hpc hslot hundone hparked
    have hcall := hinv.pool.calls thread
    rw [hpc] at hcall
    have hpos := hcall.positive slot rfl
    cases hlow : (before.producer thread).lowLatency with
    | true => exact hinv.unparked hlow hpos hslot hparked
    | false =>
        have hfinished := (hinv.calls thread).finished (by rw [hpc]; rfl) hlow
          slot hpos hslot
        exact hundone (withoutAck_of_done
          (hcall.current dispatch rfl slot hpos hslot le_rfl) hfinished.1)

/-- Where sections keep apart, guards hold and the probe's mask misses no
unfinished slot, a skipped wake is never missed. -/
theorem elisionSound_of_run {trace : List Event} {state : State}
    (run : Run (ParkingPool.pool participants) (ElisionSafe participants) start
      trace state) : ElisionSound participants state :=
  (run.invariant (fun _ => ElisionInv participants)
    (elisionInv_start participants)
    fun hinv hsafe hstep => elisionInv_step hinv hsafe hstep).sound

/-! ## A run with both elisions -/

/-- The test in front of a step where thread 0 alone dispatches and no guard is
destroyed. -/
def elisionCheck (state : State) : Action → Bool
  | .advance thread => thread == 0 &&
      (state.guards.any Guard.ready || state.control.hotSpinDepth == 0)
  | .disengage _ _ => false
  | .worker slot => state.guards.all fun guard => guard.pc != .raise ||
      decide ((state.slots slot).hotSpinEpoch < guard.epoch)
  | action => action.caller == none || action.caller == some 0

theorem elisionCheck_caller {state : State}
    (hcheck : elisionCheck state action = true) :
    action.caller = none ∨ action.caller = some 0 := by
  cases action <;> simp_all [elisionCheck, Action.caller]

theorem depth_of_decides {state : State}
    (hdecides : state.decidesLowLatency thread) :
    state.control.hotSpinDepth ≠ 0 := by
  unfold State.decidesLowLatency at hdecides
  split at hdecides
  · exact hdecides.2.1
  · exact hdecides
  · exact hdecides.elim

theorem elisionSafe_of_check {state : State} (honly : state.OnlyFirstCalls)
    (hcheck : elisionCheck state action = true) :
    ElisionSafe 2 state action where
  apart := by
    cases action <;> simp only [SectionsApart]
    case advance thread =>
      simp only [elisionCheck, Bool.and_eq_true, beq_iff_eq] at hcheck
      obtain ⟨rfl, -⟩ := hcheck
      exact enters_apart honly
  guards := by
    refine ⟨?_, ?_, ?_⟩
    · rintro thread rfl hdecides
      have hdepth := depth_of_decides hdecides
      simp only [elisionCheck, Bool.and_eq_true, Bool.or_eq_true, beq_iff_eq,
        hdepth, or_false, List.any_eq_true] at hcheck
      exact hcheck.2
    · rintro thread index rfl
      simp [elisionCheck] at hcheck
    · rintro slot rfl - - guard hmem - hraise
      simpa [hraise] using List.all_eq_true.1 hcheck guard hmem
  probed := by
    rintro thread dispatch - - slot hmask hslot
    omega

/-- A call whose probe sees the worker done, and a second one under a guard:
both skip the wake. -/
theorem elisionSound_probedAndGuarded :
    ∃ trace state, Run (ParkingPool.pool 2) (ElisionSafe 2) start trace state ∧
      (state.producer 0).elided = true ∧
      (state.producer 0).lowLatency = true ∧ ElisionSound 2 state := by
  obtain ⟨trace, state, run, hstate⟩ :=
    run_of_checked (ParkingPool.pool 2) elisionCheck State.OnlyFirstCalls
      (fun honly hcheck => elisionSafe_of_check honly hcheck)
      (fun honly hcheck hstep =>
        onlyFirstCalls_step honly (elisionCheck_caller hcheck) hstep)
      start (fun _ _ => rfl)
      (List.flatten
        [[.dispatch 0 { lockedRequest with preWakeCompletionProbe := true }],
          List.replicate 8 (.advance 0), List.replicate 4 (.worker 1),
          [.probeDone 0 1], List.replicate 4 (.advance 0),
          [.engage 1 true], List.replicate 4 (.advanceGuard 0),
          List.replicate 4 (.worker 1), List.replicate 2 (.advanceGuard 0),
          [.dispatch 0 lockedRequest], List.replicate 8 (.advance 0)])
      (fun _ state => decide ((state.producer 0).elided = true ∧
        (state.producer 0).lowLatency = true))
      (by decide +kernel)
  obtain ⟨helided, hlow⟩ := by simpa using hstate
  exact ⟨trace, state, run, helided, hlow, elisionSound_of_run run⟩

end Citor.ParkingPool
