import Citor.Core.SharedMemory
import Citor.Plex.PlexCorrectness

/-!
# A plex call amounts to its serial loop

The callbacks of a call work on shared memory while the phases run.  If bodies
of one phase do not interfere with each other, a call that nobody stops and in
which nothing throws leaves the memory behind that the plain loop makes: for
each phase the hook and then the body of every slot.
-/

namespace Citor.Plex

open Citor.Interleaving
open Citor.DoneSlots
open Citor.SlotRunners
open SharedMemory (Brackets Bracketed Separated Commutes withMemory begin
  perform)

/-! ## Callbacks as blocks -/

inductive Callback
  | prePhase (phase : ℕ)
  | body (phase slot : ℕ)
  deriving DecidableEq, Repr

def Event.opens : Event → Option Callback
  | .prePhaseStart phase => some (.prePhase phase)
  | .bodyStart phase slot => some (.body phase slot)
  | _ => none

def Event.closes : Event → Option Callback
  | .prePhaseEnd phase => some (.prePhase phase)
  | .bodyEnd phase slot => some (.body phase slot)
  | _ => none

def callbacks : Brackets Event Callback := ⟨Event.opens, Event.closes⟩

/-- The callbacks in the order of the plain loop. -/
def Call.serialOrder (call : Call) : List Callback :=
  (List.range call.nPhases).flatMap fun phase =>
    .prePhase phase :: (List.range call.participants).map (.body phase)

/-- The slot that makes a callback. -/
def Callback.slot : Callback → ℕ
  | .prePhase _ => 0
  | .body _ slot => slot

def Callback.phase : Callback → ℕ
  | .prePhase phase | .body phase _ => phase

section Order

variable {call : Call}

theorem mem_serialOrder {callback : Callback} :
    callback ∈ call.serialOrder ↔
      callback.phase < call.nPhases ∧ callback.slot < call.participants := by
  have htwo := call.two_le
  cases callback with
  | prePhase phase =>
      simp only [Call.serialOrder, List.mem_flatMap, List.mem_range,
        List.mem_cons, Callback.prePhase.injEq, List.mem_map, reduceCtorEq,
        and_false, exists_const, or_false, Callback.phase, Callback.slot]
      constructor
      · rintro ⟨other, hphase, rfl⟩
        exact ⟨hphase, by omega⟩
      · exact fun ⟨hphase, _⟩ => ⟨phase, hphase, rfl⟩
  | body phase slot =>
      simp [Call.serialOrder, Callback.phase, Callback.slot]

theorem nodup_serialOrder : call.serialOrder.Nodup := by
  rw [Call.serialOrder, List.nodup_flatMap]
  constructor
  · intro phase _
    rw [List.nodup_cons]
    constructor
    · simp
    · exact List.nodup_range.map fun left right hsame => by simpa using hsame
  · apply List.nodup_range.imp
    intro left right hne callback hleft hright
    have hphase : ∀ phase, callback ∈ Callback.prePhase phase ::
        (List.range call.participants).map (.body phase) →
        callback.phase = phase := by
      intro phase hmem
      cases List.mem_cons.1 hmem with
      | inl hhook => rw [hhook]; rfl
      | inr hbody =>
          obtain ⟨slot, -, rfl⟩ := List.mem_map.1 hbody
          rfl
    exact hne ((hphase left hleft).symm.trans (hphase right hright))

end Order

/-! ## What a step emits -/

/-- Where a slot stands when it emits an event. -/
inductive EmitsAt (state : State) (slot : ℕ) : Event → Prop
  | prePhaseStart {phase} : state.pc slot = .loadCancelled phase →
      EmitsAt state slot (.prePhaseStart phase)
  | prePhaseEnd {phase} : state.pc slot = .inPrePhase phase →
      EmitsAt state slot (.prePhaseEnd phase)
  | publish {phase} : state.pc slot = .publish phase →
      EmitsAt state slot (.bodyStart phase slot)
  | published {phase} : state.pc slot = .published phase →
      state.cancelled = false → EmitsAt state slot (.bodyStart phase slot)
  | bodyEnd {phase} : state.pc slot = .inBody phase →
      EmitsAt state slot (.bodyEnd phase slot)
  | threw (failure) : EmitsAt state slot (.threw failure)

section Emits

variable {call : Call} {trace : List Event} {before after : State}

theorem emitsAt_of_stepSlot {slot : ℕ} {event : Event}
    (hstep : stepSlot call before slot = some (after, some event)) :
    EmitsAt before slot event := by
  cases hpc : before.pc slot with
  | loadCancelled phase =>
      simp only [stepSlot, hpc] at hstep
      split_ifs at hstep <;>
        simp only [Option.some.injEq, Prod.mk.injEq, reduceCtorEq, and_false]
          at hstep
      exact hstep.2 ▸ .prePhaseStart hpc
  | inPrePhase phase =>
      simp only [stepSlot, hpc] at hstep
      split_ifs at hstep <;>
        simp only [Option.some.injEq, Prod.mk.injEq] at hstep
      · exact hstep.2 ▸ .threw _
      · exact hstep.2 ▸ .prePhaseEnd hpc
  | publish phase =>
      simp only [stepSlot, hpc, Option.some.injEq, Prod.mk.injEq] at hstep
      exact hstep.2 ▸ .publish hpc
  | published phase =>
      simp only [stepSlot, hpc] at hstep
      split_ifs at hstep with hclear <;>
        simp only [Option.some.injEq, Prod.mk.injEq, reduceCtorEq, and_false]
          at hstep
      exact hstep.2 ▸ .published hpc (by simpa using hclear)
  | inBody phase =>
      simp only [stepSlot, hpc] at hstep
      split_ifs at hstep <;>
        simp only [Option.some.injEq, Prod.mk.injEq] at hstep
      · exact hstep.2 ▸ .threw _
      · exact hstep.2 ▸ .bodyEnd hpc
  | _ =>
      simp only [stepSlot, hpc] at hstep
      repeat' split at hstep
      all_goals simp at hstep

theorem emitsAt_of_step {action : Action} {event : Event}
    (hstep : (plex call).step before action = some (after, some event)) :
    ∃ slot < call.participants, EmitsAt before slot event := by
  cases action with
  | slot slot =>
      simp only [plex] at hstep
      split_ifs at hstep with hslot
      exact ⟨slot, hslot, emitsAt_of_stepSlot hstep⟩
  | staleSpin slot =>
      simp only [plex, stepStaleSpin] at hstep
      repeat' split at hstep
      all_goals simp at hstep
  | join =>
      simp only [plex] at hstep
      split_ifs at hstep
      simp at hstep
  | requestStop => simp [plex] at hstep

/-! ## What lies behind an event -/

theorem prePhaseEnd_mem_passedEvents {passed phase : ℕ} :
    .prePhaseEnd phase ∈ passedEvents 0 passed ↔ phase < passed := by
  induction passed with
  | zero => simp [passedEvents]
  | succ passed ih =>
      simp only [passedEvents, phaseEvents, preEvents, if_true, List.mem_append,
        ih]
      simp
      omega

/-- A phase is published behind the end of its hook. -/
theorem Inv.hook_of_published (hinv : Inv call trace before)
    (hclear : before.cancelled = false) {phase : ℕ}
    (hphase : phase + 1 ≤ before.own.currentPhase) :
    .prePhaseEnd phase ∈ trace := by
  have htwo := call.two_le
  have hslot := hinv.slots 0 (by omega)
  have hok := hslot.pcOk
  have hevent : (Event.prePhaseEnd phase).slot = 0 := rfl
  rw [hinv.published] at hphase
  rw [hslot.mem_iff hevent, prePhaseEnd_mem_passedEvents]
  by_cases hpassed : phase < (before.pc 0).passed
  · exact .inl hpassed
  · right
    cases hpc : before.pc 0 with
    | inBody current =>
        simp only [hpc, Pc.publishedPhase, Pc.passed, Pc.phase] at hphase hpassed
        obtain rfl : current = phase := by omega
        simp [currentEvents, preEvents]
    | capture current why | storeCancelled current why =>
        simp only [hpc, Pc.publishedPhase, Pc.passed, Pc.phase] at hphase hpassed
        split_ifs at hphase with hwhy
        · obtain rfl : current = phase := by omega
          simp [currentEvents, leavingEvents, preEvents, hwhy]
        · omega
    | stampLeaving current why | joinLeaving current peer why =>
        simp [hpc, PcOk, hclear] at hok
    | left passed why =>
        cases why with
        | none =>
            simp only [hpc, Pc.publishedPhase, Pc.passed, Pc.phase]
              at hphase hpassed
            omega
        | some why => simp [hpc, PcOk, hclear] at hok
    | _ =>
        simp only [hpc, Pc.publishedPhase, Pc.passed, Pc.phase] at hphase hpassed
        omega

/-- A callback of a phase starts behind the hooks of the phases before, and a
body behind the hook of its own. -/
theorem hooks_of_run {state : State}
    (run : Reaches (plex call) (start call) trace state) :
    ∀ earlier event later, trace = earlier ++ event :: later →
      ∀ phase, event.starts = some phase →
        (∀ before < phase, .prePhaseEnd before ∈ earlier) ∧
          ∀ slot, event = .bodyStart phase slot →
            .prePhaseEnd phase ∈ earlier := by
  apply run.at_event (Inv call) (fun earlier event => ∀ phase,
    event.starts = some phase →
      (∀ before < phase, .prePhaseEnd before ∈ earlier) ∧
        ∀ slot, event = .bodyStart phase slot → .prePhaseEnd phase ∈ earlier)
    (fun run => inv_run run)
  intro trace before action after event hinv _ hstep phase hstarts
  have htwo := call.two_le
  have hproducer := hinv.slots 0 (by omega)
  constructor
  · intro earlier hearlier
    have hready := ready_of_starts hinv hstep hstarts 0 (by omega)
    have hevent : (Event.prePhaseEnd earlier).slot = 0 := rfl
    rw [hproducer.mem_iff hevent, prePhaseEnd_mem_passedEvents]
    exact .inl (hearlier.trans_le hready)
  · rintro slot rfl
    obtain ⟨runner, hrunner, hemits⟩ := emitsAt_of_step hstep
    have hok := (hinv.slots runner hrunner).pcOk
    cases hemits with
    | publish hpc =>
        rw [hpc] at hok
        obtain ⟨rfl, -⟩ := hok
        have hevent : (Event.prePhaseEnd phase).slot = 0 := rfl
        rw [hproducer.mem_iff hevent, hpc]
        exact .inr (by simp [currentEvents])
    | published hpc hclear =>
        rw [hpc] at hok
        exact hinv.hook_of_published hclear hok.2.2

/-- A callback ends behind its start. -/
theorem matched_of_run {state : State}
    (run : Reaches (plex call) (start call) trace state) :
    ∀ earlier event later, trace = earlier ++ event :: later →
      ∀ callback, event.closes = some callback →
        callback ∈ earlier.filterMap Event.opens := by
  apply run.at_event (Inv call) (fun earlier event => ∀ callback,
    event.closes = some callback → callback ∈ earlier.filterMap Event.opens)
    (fun run => inv_run run)
  intro trace before action after event hinv _ hstep callback hcloses
  obtain ⟨slot, hslot, hemits⟩ := emitsAt_of_step hstep
  have hslotInv := hinv.slots slot hslot
  have hok := hslotInv.pcOk
  have hmem : ∀ opening : Event, opening.slot = slot →
      opening ∈ currentEvents slot (before.pc slot) →
      opening.opens = some callback →
      callback ∈ trace.filterMap Event.opens := by
    intro opening hopening hcurrent hopens
    exact List.mem_filterMap.2
      ⟨opening, (hslotInv.mem_iff hopening).2 (.inr hcurrent), hopens⟩
  cases hemits with
  | @prePhaseEnd phase hpc =>
      rw [hpc] at hok
      obtain ⟨rfl, -⟩ := hok
      apply hmem (.prePhaseStart phase) rfl
      · simp [hpc, currentEvents]
      · exact hcloses
  | @bodyEnd phase hpc =>
      apply hmem (.bodyStart phase slot) rfl
      · simp [hpc, currentEvents]
      · exact hcloses
  | prePhaseStart | publish | published | threw => cases hcloses

end Emits

/-! ## The memory behind a call -/

section Memory

variable {call : Call} {trace : List Event} {state : State}

/-- What a completed call has emitted. -/
theorem Inv.history_of_complete (hinv : Inv call trace state)
    (hended : state.outcome ≠ none) (hquiet : state.stopRequested = false)
    (hnever : ∀ failure, .threw failure ∉ trace) {slot : ℕ}
    (hslot : slot < call.participants) :
    trace.filter (fun event => event.slot = slot) =
      passedEvents slot call.nPhases := by
  obtain ⟨outcome, houtcome⟩ := Option.ne_none_iff_exists'.1 hended
  have hpc := hinv.passed_of_undisturbed (hinv.outcome _ houtcome).1 hquiet
    hnever hslot
  have hhistory := (hinv.slots slot hslot).history
  rw [hpc] at hhistory
  simpa [currentEvents, Pc.passed, Pc.phase] using hhistory

theorem opens_phaseEvents (phase slot : ℕ) :
    (phaseEvents phase slot).filterMap Event.opens =
      (if slot = 0 then [.prePhase phase] else []) ++ [.body phase slot] := by
  by_cases hzero : slot = 0 <;>
    simp [phaseEvents, preEvents, hzero, Event.opens, List.filterMap_cons]

theorem mem_opens_passedEvents {slot passed : ℕ} {callback : Callback} :
    callback ∈ (passedEvents slot passed).filterMap Event.opens ↔
      callback.slot = slot ∧ callback.phase < passed := by
  induction passed with
  | zero => simp [passedEvents]
  | succ passed ih =>
      rw [passedEvents, List.filterMap_append, List.mem_append, ih,
        opens_phaseEvents]
      cases callback with
      | prePhase phase =>
          simp only [Callback.slot, Callback.phase]
          by_cases hzero : slot = 0
          · simp [hzero]
            omega
          · simp [hzero, Ne.symm hzero]
      | body phase runner =>
          simp only [Callback.slot, Callback.phase]
          by_cases hzero : slot = 0
          · simp [hzero]
            omega
          · simp [hzero]
            omega

theorem nodup_opens_passedEvents (slot passed : ℕ) :
    ((passedEvents slot passed).filterMap Event.opens).Nodup := by
  induction passed with
  | zero => simp [passedEvents]
  | succ passed ih =>
      rw [passedEvents, List.filterMap_append, List.nodup_append]
      refine ⟨ih, ?_, ?_⟩
      · rw [opens_phaseEvents]
        split_ifs <;> simp
      · rintro callback hearlier later hlater rfl
        have hphase := (mem_opens_passedEvents.1 hearlier).2
        rw [opens_phaseEvents] at hlater
        have hsame : callback.phase = passed := by
          split_ifs at hlater <;> simp at hlater
          · cases hlater with
            | inl hlater => rw [hlater]; rfl
            | inr hlater => rw [hlater]; rfl
          · rw [hlater]; rfl
        omega

theorem owner_of_opens (event : Event) (callback : Callback)
    (hopens : callbacks.opens event = some callback) :
    callback.slot = event.slot := by
  cases event <;> simp [callbacks, Event.opens] at hopens <;> subst hopens <;>
    rfl

theorem Inv.opens_of_complete (hinv : Inv call trace state)
    (hended : state.outcome ≠ none) (hquiet : state.stopRequested = false)
    (hnever : ∀ failure, .threw failure ∉ trace) :
    (trace.filterMap callbacks.opens).Perm call.serialOrder := by
  have houtside : ∀ key, call.participants ≤ key →
      trace.filter (fun event => event.slot = key) = [] := by
    intro key hkey
    apply List.filter_eq_nil_iff.2
    intro event hmem hsame
    have hbound := hinv.bounded event hmem
    have hslot : event.slot = key := of_decide_eq_true hsame
    omega
  apply SharedMemory.perm_of_parties callbacks nodup_serialOrder owner_of_opens
  · intro key
    by_cases hkey : key < call.participants
    · rw [hinv.history_of_complete hended hquiet hnever hkey]
      exact nodup_opens_passedEvents key call.nPhases
    · rw [houtside key (not_lt.1 hkey)]
      exact List.nodup_nil
  · intro callback
    rw [mem_serialOrder]
    by_cases hkey : callback.slot < call.participants
    · rw [hinv.history_of_complete hended hquiet hnever hkey]
      exact mem_opens_passedEvents.trans (by simp [hkey])
    · rw [houtside _ (not_lt.1 hkey)]
      simp [hkey]

theorem Inv.closed_of_complete (hinv : Inv call trace state)
    (hended : state.outcome ≠ none) (hquiet : state.stopRequested = false)
    (hnever : ∀ failure, .threw failure ∉ trace) {callback : Callback}
    (hmem : callback ∈ call.serialOrder) :
    callback ∈ trace.filterMap Event.closes := by
  obtain ⟨hphase, hslot⟩ := mem_serialOrder.1 hmem
  have hpart := hinv.history_of_complete hended hquiet hnever hslot
  have hends : ∀ event : Event, event.closes = some callback →
      event ∈ passedEvents callback.slot call.nPhases →
      callback ∈ trace.filterMap Event.closes := by
    intro event hcloses hpassed
    rw [← hpart] at hpassed
    exact List.mem_filterMap.2 ⟨event, List.mem_of_mem_filter hpassed, hcloses⟩
  cases callback with
  | prePhase phase =>
      exact hends (.prePhaseEnd phase) rfl
        (prePhaseEnd_mem_passedEvents.2 hphase)
  | body phase slot =>
      exact hends (.bodyEnd phase slot) rfl
        (bodyEnd_mem_passedEvents.2 hphase)

theorem starts_of_opens {event : Event} {callback : Callback}
    (hopens : event.opens = some callback) :
    event.starts = some callback.phase := by
  cases event <;> simp [Event.opens] at hopens <;> subst hopens <;> rfl

/-- A callback is kept away from those of the phases before. -/
theorem separated_of_phase_lt
    (run : Reaches (plex call) (start call) trace state)
    {first second : Callback} (hfirst : first.slot < call.participants)
    (hphase : first.phase < second.phase) :
    Separated callbacks trace first second := by
  intro earlier event later hsplit hopens
  have hstarts := starts_of_opens hopens
  cases first with
  | prePhase phase =>
      have hhook :=
        (hooks_of_run run earlier event later hsplit _ hstarts).1 phase hphase
      exact List.mem_filterMap.2 ⟨_, hhook, rfl⟩
  | body phase slot =>
      have hbody := ordered_of_run run earlier event later hsplit _ hstarts
        phase hphase slot hfirst
      exact List.mem_filterMap.2 ⟨_, hbody, rfl⟩

/-- A body is kept away from the hook of its phase. -/
theorem separated_hook (run : Reaches (plex call) (start call) trace state)
    (phase slot : ℕ) :
    Separated callbacks trace (.prePhase phase) (.body phase slot) := by
  intro earlier event later hsplit hopens
  have hevent : event = .bodyStart phase slot := by
    cases event <;> simp [callbacks, Event.opens] at hopens
    obtain ⟨rfl, rfl⟩ := hopens
    rfl
  have hhook := (hooks_of_run run earlier event later hsplit phase
    (by rw [hevent]; rfl)).2 slot hevent
  exact List.mem_filterMap.2 ⟨_, hhook, rfl⟩

/-- If bodies of one phase do not interfere with each other, a call that ends
without a stop request and without a throw leaves the memory behind that the
plain loop makes, for every interleaving of the slots and of the operations
inside the callbacks. -/
theorem phaseSerial_of_run {Memory : Type*} (call : Call)
    (work : Callback → List (Memory → Memory))
    (hwork : ∀ phase < call.nPhases, ∀ left right, left < right →
      right < call.participants →
      SharedMemory.Commutes (work (.body phase right)) (work (.body phase left)))
    {memory : Memory} {trace : List Event}
    {state : SharedMemory.State State Callback Memory}
    (run : Reaches (withMemory (plex call) callbacks work)
      (begin (start call) memory) trace state)
    (hended : state.control.outcome ≠ none)
    (hquiet : state.control.stopRequested = false)
    (hnever : ∀ failure, .threw failure ∉ trace) :
    state.memory = perform (call.serialOrder.flatMap work) memory := by
  have hcontrol := SharedMemory.control_of_run run
  have hinv := inv_run hcontrol
  apply SharedMemory.serial_of_run nodup_serialOrder run
  · exact ⟨hinv.opens_of_complete hended hquiet hnever,
      fun _ hmem => hinv.closed_of_complete hended hquiet hnever hmem,
      matched_of_run hcontrol⟩
  · rw [Call.serialOrder, List.pairwise_flatMap]
    constructor
    · intro phase hphase
      rw [List.pairwise_cons, List.pairwise_map]
      constructor
      · intro second hsecond
        obtain ⟨slot, -, rfl⟩ := List.mem_map.1 hsecond
        exact .inr (separated_hook hcontrol phase slot)
      · apply (List.pairwise_lt_range).imp_of_mem
        intro left right _ hright hlt
        exact .inl (hwork phase (List.mem_range.1 hphase) left right hlt
          (List.mem_range.1 hright))
    · apply (List.pairwise_lt_range).imp_of_mem
      intro early late hearly hlate hlt first hfirst second hsecond
      have hmem : ∀ phase ∈ List.range call.nPhases, ∀ callback,
          callback ∈ Callback.prePhase phase ::
            (List.range call.participants).map (.body phase) →
          callback.phase = phase ∧ callback.slot < call.participants := by
        intro phase _ callback hcallback
        have htwo := call.two_le
        cases List.mem_cons.1 hcallback with
        | inl hhook =>
            rw [hhook]
            exact ⟨rfl, by simp [Callback.slot]; omega⟩
        | inr hbody =>
            obtain ⟨slot, hslot, rfl⟩ := List.mem_map.1 hbody
            exact ⟨rfl, List.mem_range.1 hslot⟩
      have hfirst := hmem early hearly first hfirst
      have hsecond := hmem late hlate second hsecond
      exact .inr (separated_of_phase_lt hcontrol hfirst.2
        (by rw [hfirst.1, hsecond.1]; exact hlt))

end Memory

/-- Two slots and two phases. -/
def twoByTwo : Call where
  participants := 2
  two_le := Nat.one_lt_two
  nPhases := 2
  nPhases_pos := Nat.two_pos
  prePhaseThrows := fun _ => false
  throws := fun _ _ => false
  epochs := .fresh

/-- A hook doubles the memory, a body adds its slot and one. -/
def doubleAndAdd : Callback → List (ℕ → ℕ)
  | .prePhase _ => [fun memory => 2 * memory]
  | .body _ slot => [fun memory => memory + slot, fun memory => memory + 1]

/-- The bodies of a phase overlap. -/
def overlapping : List Action :=
  List.flatten [List.replicate 4 (.slot 0), List.replicate 2 (.slot 1),
    List.replicate 2 (.slot 0), List.replicate 2 (.slot 1),
    List.replicate 5 (.slot 0), List.replicate 2 (.slot 1),
    List.replicate 2 (.slot 0), List.replicate 2 (.slot 1), [.slot 0, .join]]

theorem phaseSerial_twoByTwo :
    ∃ trace state, Reaches (withMemory (plex twoByTwo) callbacks doubleAndAdd)
      (begin (start twoByTwo) 1) trace state ∧ state.memory = 13 := by
  obtain ⟨trace, control, hbase, hcheck⟩ :=
    reaches_of_check (plex twoByTwo) (start twoByTwo) overlapping
      (fun trace state => state.outcome.isSome && !state.stopRequested &&
        trace.all fun event => event.opens.isSome || event.closes.isSome)
      (by decide +kernel)
  have hlift : ∃ state, Reaches
      (withMemory (plex twoByTwo) callbacks doubleAndAdd)
      (begin (start twoByTwo) 1) trace state ∧ state.control = control :=
    SharedMemory.exists_run hbase 1
  obtain ⟨state, run, rfl⟩ := hlift
  simp only [Bool.and_eq_true, Option.isSome_iff_ne_none, Bool.not_eq_true',
    List.all_eq_true] at hcheck
  obtain ⟨⟨hended, hquiet⟩, hnever⟩ := hcheck
  refine ⟨trace, state, run, ?_⟩
  rw [phaseSerial_of_run twoByTwo doubleAndAdd ?_ run hended hquiet]
  · rfl
  · intro failure hmem
    simpa [Event.opens, Event.closes] using hnever _ hmem
  · intro phase _ left right _ _ f hf g hg memory
    simp only [doubleAndAdd, List.mem_cons, List.not_mem_nil, or_false] at hf hg
    obtain rfl | rfl := hf <;> obtain rfl | rfl := hg <;> grind

end Citor.Plex
