import Citor.Plex.PlexSteps

/-!
# The plex phase protocol

What a caller of `runPlex` may rely on, for every interleaving: phases are
separated, bodies run in order and once, nothing starts behind a failure,
nobody gets stuck, and one failure is rethrown when everybody has left.
-/

namespace Citor.Plex

open Citor.Interleaving
open Citor.DoneSlots
open Citor.SlotRunners

/-! ## Reading the events -/

/-- The phase whose body an event starts on `slot`. -/
def Event.bodyPhase (slot : ℕ) : Event → Option ℕ
  | .bodyStart phase runner => if runner = slot then some phase else none
  | _ => none

/-- The phase whose `prePhaseFn` an event starts. -/
def Event.prePhase : Event → Option ℕ
  | .prePhaseStart phase => some phase
  | _ => none

/-- The phases whose bodies `slot` started, in order. -/
def bodyPhases (trace : List Event) (slot : ℕ) : List ℕ :=
  trace.filterMap (Event.bodyPhase slot)

/-- The phases whose `prePhaseFn` was started, in order. -/
def prePhases (trace : List Event) : List ℕ :=
  trace.filterMap Event.prePhase

section Events

variable {call : Call} {trace : List Event} {state : State} {slot : ℕ}

theorem filterMap_filter_slot {reads : Event → Option ℕ}
    (hreads : ∀ event phase, reads event = some phase → event.slot = slot) :
    (trace.filter fun event => event.slot = slot).filterMap reads =
      trace.filterMap reads := by
  induction trace with
  | nil => rfl
  | cons event trace ih =>
      by_cases hslot : event.slot = slot
      · simp [hslot, List.filterMap_cons, ih]
      · have hnone : reads event = none := by
          cases hread : reads event with
          | none => rfl
          | some phase => exact absurd (hreads event phase hread) hslot
        simp [hslot, hnone, ih]

theorem bodyPhases_passedEvents (slot passed : ℕ) :
    (passedEvents slot passed).filterMap (Event.bodyPhase slot) =
      List.range passed := by
  induction passed with
  | zero => rfl
  | succ passed ih =>
      rw [passedEvents, List.filterMap_append, ih, List.range_succ]
      by_cases hzero : slot = 0 <;>
        simp [phaseEvents, preEvents, hzero, Event.bodyPhase,
          List.filterMap_cons]

theorem prePhases_passedEvents (passed : ℕ) :
    (passedEvents 0 passed).filterMap Event.prePhase = List.range passed := by
  induction passed with
  | zero => rfl
  | succ passed ih =>
      rw [passedEvents, List.filterMap_append, ih, List.range_succ]
      simp [phaseEvents, preEvents, Event.prePhase]

theorem bodyEnd_mem_passedEvents {slot passed phase : ℕ} :
    .bodyEnd phase slot ∈ passedEvents slot passed ↔ phase < passed := by
  induction passed with
  | zero => simp [passedEvents]
  | succ passed ih =>
      rw [passedEvents, List.mem_append, ih]
      by_cases hzero : slot = 0 <;>
        simp [phaseEvents, preEvents, hzero] <;> omega

theorem threw_notMem_passedEvents (slot passed : ℕ) (failure : Failure) :
    .threw failure ∉ passedEvents slot passed := by
  induction passed with
  | zero => simp [passedEvents]
  | succ passed ih =>
      rw [passedEvents, List.mem_append, not_or]
      refine ⟨ih, ?_⟩
      by_cases hzero : slot = 0 <;> simp [phaseEvents, preEvents, hzero]

theorem bodyEnd_notMem_currentEvents (slot phase : ℕ) (pc : Pc) :
    .bodyEnd phase slot ∉ currentEvents slot pc := by
  have hleaving : ∀ cut why, .bodyEnd phase slot ∉
      leavingEvents cut slot why := by
    intro cut why
    cases why <;> by_cases hzero : slot = 0 <;>
      simp [leavingEvents, preEvents, hzero]
  cases pc with
  | left passed why =>
      cases why with
      | none => simp [currentEvents]
      | some why => exact hleaving passed why
  | inBody phase =>
      by_cases hzero : slot = 0 <;>
        simp [currentEvents, preEvents, hzero]
  | capture phase why | storeCancelled phase why
  | publishLeaving phase why | stampLeaving phase why
  | stampFinal phase why => exact hleaving phase why
  | joinLeaving phase peer why => exact hleaving phase why
  | _ => simp [currentEvents]

/-- A slot that threw stands in the phase it threw in. -/
theorem threw_mem_currentEvents {pc : Pc} {failure : Failure}
    (hmem : .threw failure ∈ currentEvents slot pc) :
    failure.phase = pc.passed ∧
      ∀ passed why, pc = .left passed (some why) → why ≠ .cancelled := by
  have hleaving : ∀ cut why, .threw failure ∈ leavingEvents cut slot why →
      failure.phase = cut ∧ why ≠ .cancelled := by
    intro cut why hthrew
    cases why with
    | cancelled => simp [leavingEvents] at hthrew
    | prePhase =>
        obtain rfl : failure = .prePhase cut := by
          simpa [leavingEvents] using hthrew
        exact ⟨rfl, by simp⟩
    | body =>
        obtain rfl : failure = .body cut slot := by
          by_cases hzero : slot = 0 <;>
            simpa [leavingEvents, preEvents, hzero] using hthrew
        exact ⟨rfl, by simp⟩
  cases pc with
  | left passed why =>
      cases why with
      | none => simp [currentEvents] at hmem
      | some why =>
          obtain ⟨hphase, hwhy⟩ := hleaving passed why hmem
          refine ⟨hphase, fun _ _ hleft => ?_⟩
          obtain ⟨-, rfl⟩ := by simpa using hleft
          exact hwhy
  | inBody phase =>
      by_cases hzero : slot = 0 <;>
        simp [currentEvents, preEvents, hzero] at hmem
  | capture phase why | storeCancelled phase why
  | publishLeaving phase why | stampLeaving phase why
  | stampFinal phase why =>
      exact ⟨(hleaving phase why hmem).1, by simp⟩
  | joinLeaving phase peer why =>
      exact ⟨(hleaving phase why hmem).1, by simp⟩
  | _ => simp [currentEvents] at hmem

theorem SlotInv.mem_iff (hinv : SlotInv call trace state slot) {event : Event}
    (hevent : event.slot = slot) :
    event ∈ trace ↔ event ∈ passedEvents slot (state.pc slot).passed ∨
      event ∈ currentEvents slot (state.pc slot) := by
  rw [← List.mem_append, ← hinv.history, List.mem_filter]
  simp [hevent]

theorem SlotInv.bodyEnd_mem (hinv : SlotInv call trace state slot)
    {phase : ℕ} :
    .bodyEnd phase slot ∈ trace ↔ phase < (state.pc slot).passed := by
  rw [hinv.mem_iff rfl, bodyEnd_mem_passedEvents]
  simp [bodyEnd_notMem_currentEvents]

/-- Behind its own failure a slot finishes nothing. -/
theorem SlotInv.threw_phase (hinv : SlotInv call trace state slot)
    {failure : Failure} (hslot : failure.slot = slot)
    (hthrew : .threw failure ∈ trace) :
    failure.phase = (state.pc slot).passed ∧
      ∀ passed why, state.pc slot = .left passed (some why) →
        why ≠ .cancelled := by
  have hevent : (Event.threw failure).slot = slot := hslot
  rcases (hinv.mem_iff hevent).1 hthrew with hpassed | hcurrent
  · exact absurd hpassed (threw_notMem_passedEvents _ _ _)
  · exact threw_mem_currentEvents hcurrent

/-- Bodies are started in the order of the phases, none twice. -/
theorem SlotInv.bodyPhases_eq (hinv : SlotInv call trace state slot) :
    ∃ started, bodyPhases trace slot = List.range started ∧
      (currentEvents slot (state.pc slot) = [] →
        started = (state.pc slot).passed) := by
  have hreads : ∀ event phase, Event.bodyPhase slot event = some phase →
      event.slot = slot := by
    intro event phase hread
    cases event with
    | bodyStart phase runner =>
        by_cases hsame : runner = slot
        · exact hsame
        · simp [Event.bodyPhase, hsame] at hread
    | _ => simp [Event.bodyPhase] at hread
  have hcurrent : (currentEvents slot (state.pc slot)).filterMap
        (Event.bodyPhase slot) = [] ∨
      (currentEvents slot (state.pc slot)).filterMap
        (Event.bodyPhase slot) = [(state.pc slot).passed] := by
    have hleaving : ∀ cut why,
        (leavingEvents cut slot why).filterMap (Event.bodyPhase slot) = [] ∨
        (leavingEvents cut slot why).filterMap (Event.bodyPhase slot) =
          [cut] := by
      intro cut why
      cases why <;> by_cases hzero : slot = 0 <;>
        simp [leavingEvents, preEvents, hzero, Event.bodyPhase,
          List.filterMap_cons]
    cases state.pc slot with
    | left passed why =>
        cases why with
        | none => simp [currentEvents]
        | some why => exact hleaving passed why
    | inBody phase =>
        by_cases hzero : slot = 0 <;>
          simp [currentEvents, preEvents, hzero, Event.bodyPhase, Pc.passed,
            Pc.phase, List.filterMap_cons]
    | capture phase why | storeCancelled phase why
    | publishLeaving phase why | stampLeaving phase why
    | stampFinal phase why => exact hleaving phase why
    | joinLeaving phase peer why => exact hleaving phase why
    | _ => simp [currentEvents, Event.bodyPhase]
  rw [bodyPhases, ← filterMap_filter_slot hreads, hinv.history,
    List.filterMap_append, bodyPhases_passedEvents]
  rcases hcurrent with hnone | hone
  · exact ⟨_, by rw [hnone, List.append_nil], fun _ => rfl⟩
  · refine ⟨_, by rw [hone, ← List.range_succ], fun hquiet => ?_⟩
    simp [hquiet] at hone

theorem SlotInv.prePhases_eq (hinv : SlotInv call trace state 0) :
    ∃ started, prePhases trace = List.range started ∧
      (currentEvents 0 (state.pc 0) = [] →
        started = (state.pc 0).passed) := by
  have hreads : ∀ event phase, Event.prePhase event = some phase →
      event.slot = 0 := by
    intro event phase hread
    cases event with
    | prePhaseStart phase => rfl
    | _ => simp [Event.prePhase] at hread
  have hcurrent : (currentEvents 0 (state.pc 0)).filterMap Event.prePhase =
        [] ∨
      (currentEvents 0 (state.pc 0)).filterMap Event.prePhase =
        [(state.pc 0).passed] := by
    have hleaving : ∀ cut why,
        (leavingEvents cut 0 why).filterMap Event.prePhase = [] ∨
        (leavingEvents cut 0 why).filterMap Event.prePhase = [cut] := by
      intro cut why
      cases why <;> simp [leavingEvents, preEvents, Event.prePhase]
    cases state.pc 0 with
    | left passed why =>
        cases why with
        | none => simp [currentEvents]
        | some why => exact hleaving passed why
    | capture phase why | storeCancelled phase why
    | publishLeaving phase why | stampLeaving phase why
    | stampFinal phase why => exact hleaving phase why
    | joinLeaving phase peer why => exact hleaving phase why
    | _ => simp [currentEvents, preEvents, Event.prePhase, Pc.passed, Pc.phase]
  rw [prePhases, ← filterMap_filter_slot hreads, hinv.history,
    List.filterMap_append, prePhases_passedEvents]
  rcases hcurrent with hnone | hone
  · exact ⟨_, by rw [hnone, List.append_nil], fun _ => rfl⟩
  · refine ⟨_, by rw [hone, ← List.range_succ], fun hquiet => ?_⟩
    simp [hquiet] at hone

end Events

/-! ## Phases are separated -/

section Order

variable {call : Call} {trace : List Event} {before after : State}

/-- A callback of a phase starts only when every slot is through the phases
before it. -/
theorem ready_of_starts (hinv : Inv call trace before) {action : Action}
    {event : Event} {phase : ℕ}
    (hstep : (plex call).step before action = some (after, some event))
    (hstarts : event.starts = some phase) : Ready call before phase := by
  have hslotStep : ∀ slot < call.participants,
      stepSlot call before slot = some (after, some event) →
      Ready call before phase := by
    intro slot hslot hstep
    have hok := (hinv.slots slot hslot).pcOk
    cases hpc : before.pc slot with
    | loadCancelled current =>
        rw [hpc] at hok
        obtain ⟨hzero, -, hjoined⟩ := hok
        simp only [stepSlot, hpc] at hstep
        split at hstep
        · simp at hstep
        next hclear =>
          obtain ⟨-, rfl⟩ := by simpa using hstep
          obtain rfl : current = phase := by simpa [Event.starts] using hstarts
          refine hinv.ready (by simpa using hclear) ?_ hjoined
          rw [← hzero, hpc]
          exact le_rfl
    | publish current =>
        rw [hpc] at hok
        obtain ⟨-, rfl⟩ := by simpa [stepSlot, hpc] using hstep
        obtain rfl : current = phase := by simpa [Event.starts] using hstarts
        exact hok.2.2.2
    | published current =>
        rw [hpc] at hok
        simp only [stepSlot, hpc] at hstep
        split at hstep
        · simp at hstep
        next hclear =>
          obtain ⟨-, rfl⟩ := by simpa using hstep
          obtain rfl : current = phase := by simpa [Event.starts] using hstarts
          exact hinv.ready_of_published (by simpa using hclear) hok.2.2
    | inPrePhase current | inBody current =>
        simp only [stepSlot, hpc] at hstep
        split at hstep <;>
          (obtain ⟨-, rfl⟩ := by simpa using hstep) <;>
          simp [Event.starts] at hstarts
    | _ =>
        simp only [stepSlot, hpc] at hstep
        repeat' split at hstep
        all_goals simp at hstep
  cases action with
  | slot slot =>
      simp only [plex] at hstep
      split at hstep
      next hslot => exact hslotStep slot hslot hstep
      next => simp at hstep
  | staleSpin slot =>
      simp only [plex, stepStaleSpin] at hstep
      repeat' split at hstep
      all_goals simp at hstep
  | join =>
      simp only [plex] at hstep
      split at hstep <;> simp at hstep
  | requestStop => simp [plex] at hstep

/-- Every callback of a phase starts behind the ends of all bodies of all
phases before it. -/
theorem ordered_of_run {state : State}
    (run : Reaches (plex call) (start call) trace state) :
    ∀ earlier event later, trace = earlier ++ event :: later →
      ∀ phase, event.starts = some phase →
        ∀ before < phase, ∀ slot < call.participants,
          .bodyEnd before slot ∈ earlier := by
  refine run.at_event (Inv call) (fun earlier event => ∀ phase,
    event.starts = some phase → ∀ before < phase,
      ∀ slot < call.participants, .bodyEnd before slot ∈ earlier)
    (fun run => inv_run run) ?_
  intro trace before action after event hinv _ hstep phase hstarts earlier
    hearlier slot hslot
  have hready := ready_of_starts hinv hstep hstarts slot hslot
  exact (hinv.slots slot hslot).bodyEnd_mem.2 (hearlier.trans_le hready)

/-- Nothing of a later phase starts once a callback has failed. -/
theorem starts_le_of_threw {state : State}
    (run : Reaches (plex call) (start call) trace state) {failure : Failure}
    (hthrew : .threw failure ∈ trace) {event : Event} (hevent : event ∈ trace)
    {phase : ℕ} (hstarts : event.starts = some phase) :
    phase ≤ failure.phase := by
  by_contra hlater
  have hinv := inv_run run
  have hslot : failure.slot < call.participants := hinv.bounded _ hthrew
  obtain ⟨earlier, later, hsplit⟩ := List.append_of_mem hevent
  have hended : .bodyEnd failure.phase failure.slot ∈ earlier :=
    ordered_of_run run _ _ _ hsplit phase hstarts failure.phase (by omega)
      failure.slot hslot
  have hslotInv := hinv.slots failure.slot hslot
  have hpassed := hslotInv.bodyEnd_mem.1
    (by rw [hsplit]; exact List.mem_append_left _ hended)
  have := (hslotInv.threw_phase rfl hthrew).1
  omega

end Order

/-! ## Progress -/

section Progress

variable {call : Call} {trace : List Event} {state : State} {slot : ℕ}

/-- Steps of a slot that does not wait are always enabled. -/
theorem stepSlot_isSome (hrunning : (state.pc slot).hasLeft = false)
    (hjoin : ∀ phase peer, state.pc slot = .joinPhase phase peer →
      call.stamp phase ≤ state.done peer)
    (hleaving : ∀ phase peer why,
      state.pc slot = .joinLeaving phase peer why →
      call.stamp phase ≤ state.done peer)
    (hspin : ∀ phase, state.pc slot = .spin phase →
      phase + 1 ≤ state.own.currentPhase ∨ state.cancelled = true) :
    (stepSlot call state slot).isSome = true := by
  cases hpc : state.pc slot with
  | joinPhase phase peer =>
      have hreached := Nat.not_lt.2 (hjoin phase peer hpc)
      simp only [stepSlot, hpc, hreached, if_false]
      split <;> rfl
  | joinLeaving phase peer why =>
      have hreached := Nat.not_lt.2 (hleaving phase peer why hpc)
      simp only [stepSlot, hpc, hreached, if_false]
      split <;> rfl
  | spin phase =>
      simp only [stepSlot, hpc]
      rcases hspin phase hpc with hpublished | hset
      · simp [hpublished]
      · split
        · rfl
        · simp
  | left passed why => simp [hpc, Pc.hasLeft] at hrunning
  | _ =>
      simp only [stepSlot, hpc]
      repeat' split
      all_goals rfl

/-- A worker whose stamp is missing moves: its phase is published. -/
theorem Inv.worker_moves (hinv : Inv call trace state)
    (hslot : slot < call.participants) (hworker : slot ≠ 0) {phase : ℕ}
    (hphase : phase < call.nPhases) (hcurrent : phase < state.own.currentPhase)
    (hmissing : state.done slot < call.stamp phase) :
    (stepSlot call state slot).isSome = true := by
  have hslotInv := hinv.slots slot hslot
  have hok := hslotInv.pcOk
  have hstamps := hslotInv.le_done hworker
  refine stepSlot_isSome ?_ ?_ ?_ ?_
  · cases hpc : state.pc slot with
    | left passed why =>
        rw [hpc] at hstamps
        have := hstamps phase hphase
        omega
    | _ => rfl
  · intro current peer hpc
    rw [hpc] at hok
    exact absurd hok.1 hworker
  · intro current peer why hpc
    rw [hpc] at hok
    exact absurd hok.1 hworker
  · intro current hpc
    rw [hpc] at hstamps
    refine .inl ?_
    by_contra hbehind
    have := hstamps phase (by simp only [Pc.stamped, Pc.phase]; omega)
    omega

/-- As long as some slot has not returned, some slot can take a step. -/
theorem Inv.exists_slot_step (hinv : Inv call trace state)
    (hslot : slot < call.participants)
    (hrunning : (state.pc slot).hasLeft = false) :
    ∃ mover < call.participants,
      (stepSlot call state mover).isSome = true := by
  have htwo := call.two_le
  have hzeroInv := hinv.slots 0 (by omega)
  have hok := hzeroInv.pcOk
  by_cases hmoves : (stepSlot call state 0).isSome = true
  · exact ⟨0, by omega, hmoves⟩
  by_cases hzeroLeft : (state.pc 0).hasLeft = true
  · -- slot 0 is gone: nobody is left behind its published phase
    have hworker : slot ≠ 0 := by
      rintro rfl
      simp [hzeroLeft] at hrunning
    have hslotOk := (hinv.slots slot hslot).pcOk
    refine ⟨slot, hslot, stepSlot_isSome hrunning ?_ ?_ ?_⟩
    · intro phase peer hpc
      rw [hpc] at hslotOk
      exact absurd hslotOk.1 hworker
    · intro phase peer why hpc
      rw [hpc] at hslotOk
      exact absurd hslotOk.1 hworker
    · intro phase hpc
      rw [hpc] at hslotOk
      cases hzero : state.pc 0 with
      | left passed why =>
          rw [hzero] at hok
          cases why with
          | none =>
              have hcurrent := hinv.published
              rw [hzero, Pc.publishedPhase, Pc.phase, hok.1] at hcurrent
              · exact .inl (hcurrent ▸ hslotOk.2)
              all_goals simp
          | some why => exact .inr hok.2.1
      | _ => simp [hzero, Pc.hasLeft] at hzeroLeft
  · -- slot 0 waits for a worker, and that worker can move
    have hzeroRuns : (state.pc 0).hasLeft = false := by simpa using hzeroLeft
    have hcurrent := hinv.published
    have hwaiting : ∃ phase peer, phase < call.nPhases ∧ 1 ≤ peer ∧
        peer < call.participants ∧ phase < state.own.currentPhase ∧
        state.done peer < call.stamp phase := by
      by_contra hnone
      push Not at hnone
      refine hmoves (stepSlot_isSome hzeroRuns ?_ ?_ ?_)
      · intro phase peer hpc
        rw [hpc] at hok hcurrent
        obtain ⟨-, hphase, -, hpos, hpeer, -⟩ := hok
        exact hnone phase peer hphase hpos hpeer (by
          rw [hcurrent]
          exact Nat.lt_succ_self phase)
      · intro phase peer why hpc
        rw [hpc] at hok hcurrent
        obtain ⟨-, hphase, hpos, hpeer, -⟩ := hok
        exact hnone phase peer hphase hpos hpeer (by
          rw [hcurrent]
          exact Nat.lt_succ_self phase)
      · intro phase hpc
        rw [hpc] at hok
        exact absurd rfl hok.1
    obtain ⟨phase, peer, hphase, hpos, hpeer, hpublished, hmissing⟩ := hwaiting
    exact ⟨peer, hpeer,
      hinv.worker_moves hpeer (by omega) hphase hpublished hmissing⟩

/-- Nobody is stuck: until the call has ended, a slot or the join can take a
step. -/
theorem Inv.exists_step (hinv : Inv call trace state)
    (hrunning : state.outcome = none) :
    ∃ action after event, action ≠ .requestStop ∧
      (plex call).step state action = some (after, event) := by
  by_cases hall : state.allLeft Pc.hasLeft call.participants = true
  · refine ⟨.join, { state with
        outcome := some (rethrowIfCaptured state.firstException) }, none,
      by simp, ?_⟩
    simp only [plex, hrunning, hall, and_self, if_true]
  · simp only [State.allLeft_iff, not_forall, Bool.not_eq_true] at hall
    obtain ⟨slot, hslot, hleft⟩ := hall
    obtain ⟨mover, hmover, hsome⟩ := hinv.exists_slot_step hslot hleft
    obtain ⟨⟨after, event⟩, hstep⟩ := Option.isSome_iff_exists.1 hsome
    exact ⟨.slot mover, after, event, by simp,
      by simpa [plex, hmover] using hstep⟩

end Progress

/-! ## Steps that are left -/

section Measure

variable {call : Call} {trace : List Event} {before after : State}

/-- Operations a slot can spend on one phase, at most. -/
def Call.phaseSteps (call : Call) : ℕ :=
  call.participants + 13

/-- Atomic operations left in front of a program counter, at most. -/
def Pc.remaining (call : Call) : Pc → ℕ
  | .pollToken phase | .spin phase =>
      (call.nPhases - phase) * call.phaseSteps
  | .loadCancelled phase | .published phase =>
      (call.nPhases - (phase + 1)) * call.phaseSteps + call.participants + 12
  | .inPrePhase phase =>
      (call.nPhases - (phase + 1)) * call.phaseSteps + call.participants + 11
  | .publish phase =>
      (call.nPhases - (phase + 1)) * call.phaseSteps + call.participants + 10
  | .inBody phase =>
      (call.nPhases - (phase + 1)) * call.phaseSteps + call.participants + 9
  | .stampPhase phase =>
      (call.nPhases - (phase + 1)) * call.phaseSteps + call.participants + 8
  | .joinPhase phase peer =>
      (call.nPhases - (phase + 1)) * call.phaseSteps +
        (call.participants - peer)
  | .capture _ _ => call.participants + 7
  | .storeCancelled _ _ => call.participants + 6
  | .publishLeaving _ _ => call.participants + 5
  | .stampLeaving _ _ => call.participants + 4
  | .stampObserved _ => 3
  | .stampFinal _ _ => 2
  | .joinLeaving _ peer _ => call.participants - peer
  | .left _ _ => 0

/-- Atomic operations left in the call, at most. -/
def State.remaining (call : Call) (state : State) : ℕ :=
  ∑ slot ∈ Finset.range call.participants, (state.pc slot).remaining call +
    if state.outcome = none then 1 else 0

/-- A phase ahead is worth its steps. -/
theorem phase_split {phase : ℕ} (hphase : phase < call.nPhases) :
    (call.nPhases - phase) * call.phaseSteps =
      (call.nPhases - (phase + 1)) * call.phaseSteps +
        (call.participants + 13) := by
  have hsplit : call.nPhases - phase = (call.nPhases - (phase + 1)) + 1 := by
    omega
  rw [hsplit, Nat.succ_mul]
  rfl

theorem remaining_enterPhase (phase slot : ℕ) :
    (enterPhase call phase slot).remaining call ≤
      (call.nPhases - phase) * call.phaseSteps := by
  obtain ⟨-, -, h⟩ | ⟨-, -, h⟩ | ⟨-, h⟩ := enterPhase_cases call phase slot <;>
    simp [h, Pc.remaining]

theorem remaining_afterCancel (phase slot : ℕ) (why : Leaving) :
    (afterCancel phase slot why).remaining call < call.participants + 6 := by
  unfold afterCancel
  repeat' split
  all_goals simp only [Pc.remaining]; omega

theorem stepSlot_remaining (hinv : Inv call trace before) {slot : ℕ}
    (hslot : slot < call.participants) {event : Option Event}
    (hstep : stepSlot call before slot = some (after, event)) :
    (after.pc slot).remaining call < (before.pc slot).remaining call := by
  have hok := (hinv.slots slot hslot).pcOk
  have htwo := call.two_le
  cases hpc : before.pc slot with
  | pollToken phase =>
      rw [hpc] at hok
      have hsplit := phase_split hok.2.1
      simp only [stepSlot, hpc] at hstep
      split at hstep <;>
        (obtain ⟨rfl, rfl⟩ := by simpa using hstep) <;>
        simp only [State.setPc, Function.update_self, Pc.remaining] <;> omega
  | spin phase =>
      rw [hpc] at hok
      have hsplit := phase_split hok.2
      simp only [stepSlot, hpc] at hstep
      split at hstep
      · obtain ⟨rfl, rfl⟩ := by simpa using hstep
        simp only [State.setPc, Function.update_self, Pc.remaining]
        omega
      · split at hstep
        · obtain ⟨rfl, rfl⟩ := by simpa using hstep
          simp only [State.setPc, Function.update_self, Pc.remaining]
          omega
        · simp at hstep
  | joinPhase phase peer =>
      rw [hpc] at hok
      obtain ⟨-, -, -, -, hpeer, -⟩ := hok
      have henter : (enterPhase call (phase + 1) slot).remaining call ≤
          (call.nPhases - (phase + 1)) * call.phaseSteps :=
        remaining_enterPhase (phase + 1) slot
      simp only [stepSlot, hpc] at hstep
      split at hstep
      · simp at hstep
      split at hstep <;>
        (obtain ⟨rfl, rfl⟩ := by simpa using hstep) <;>
        simp only [State.setPc, Function.update_self]
      · simp only [Pc.remaining]
        omega
      · exact henter.trans_lt (by simp only [Pc.remaining]; omega)
  | joinLeaving phase peer why =>
      rw [hpc] at hok
      obtain ⟨-, -, -, hpeer, -⟩ := hok
      simp only [stepSlot, hpc] at hstep
      split at hstep
      · simp at hstep
      split at hstep <;>
        (obtain ⟨rfl, rfl⟩ := by simpa using hstep) <;>
        simp only [State.setPc, Function.update_self, Pc.remaining] <;> omega
  | publishLeaving phase why =>
      obtain ⟨rfl, rfl⟩ := by simpa [stepSlot, hpc] using hstep
      simp only [State.setPc, Function.update_self]
      split <;> simp only [Pc.remaining] <;> omega
  | stampObserved phase =>
      obtain ⟨rfl, rfl⟩ := by simpa [stepSlot, hpc] using hstep
      simp only [State.setPc, Function.update_self]
      split <;> simp only [Pc.remaining] <;> omega
  | storeCancelled phase why =>
      obtain ⟨rfl, rfl⟩ := by simpa [stepSlot, hpc] using hstep
      simp only [State.setPc, Function.update_self]
      exact remaining_afterCancel phase slot why
  | stampPhase phase =>
      have henter : (enterPhase call (phase + 1) slot).remaining call ≤
          (call.nPhases - (phase + 1)) * call.phaseSteps :=
        remaining_enterPhase (phase + 1) slot
      obtain ⟨rfl, rfl⟩ := by simpa [stepSlot, hpc] using hstep
      simp only [State.setPc, Function.update_self]
      split
      · simp only [Pc.remaining]
        omega
      · exact henter.trans_lt (by simp only [Pc.remaining]; omega)
  | left passed why => simp [stepSlot, hpc] at hstep
  | _ =>
      simp only [stepSlot, hpc] at hstep
      repeat' split at hstep
      all_goals
        (obtain ⟨rfl, rfl⟩ := by simpa using hstep)
        simp only [State.setPc, State.stamp, Function.update_self,
          Pc.remaining]
        omega

/-- A slot that moved has less to do, and so has the call. -/
theorem remaining_lt_of_slot {slot : ℕ} {pc : Pc}
    (hslot : slot < call.participants) (hmoves : Moves slot pc before after)
    (hless : (after.pc slot).remaining call <
      (before.pc slot).remaining call) :
    after.remaining call < before.remaining call := by
  have hsum : ∑ other ∈ Finset.range call.participants,
        (after.pc other).remaining call <
      ∑ other ∈ Finset.range call.participants,
        (before.pc other).remaining call := by
    refine Finset.sum_lt_sum (fun other _ => ?_)
      ⟨slot, Finset.mem_range.2 hslot, hless⟩
    by_cases hsame : other = slot
    · rw [hsame]
      exact hless.le
    · rw [hmoves.atPc, Function.update_of_ne hsame]
  simp only [State.remaining, hmoves.outcome]
  omega

/-- Every step but a stop request leaves the call with less to do. -/
theorem remaining_lt (hinv : Inv call trace before) {action : Action}
    {event : Option Event} (haction : action ≠ .requestStop)
    (hstep : (plex call).step before action = some (after, event)) :
    after.remaining call < before.remaining call := by
  cases action with
  | slot slot =>
      simp only [plex] at hstep
      split at hstep
      next hslot =>
        obtain ⟨pc, hok⟩ := stepSlot_ok hinv hslot hstep
        exact remaining_lt_of_slot hslot hok.moves
          (stepSlot_remaining hinv hslot hstep)
      next => simp at hstep
  | staleSpin slot =>
      simp only [plex] at hstep
      split at hstep
      next hslot =>
        cases hpc : before.pc slot with
        | spin phase =>
            simp only [stepStaleSpin, hpc] at hstep
            split at hstep
            next hset =>
              obtain ⟨rfl, rfl⟩ := by simpa using hstep
              have hspin := (hinv.slots slot hslot).pcOk
              rw [hpc] at hspin
              have hsplit := phase_split hspin.2
              have hok := spinCancelled_ok hinv hslot hpc hset
              refine remaining_lt_of_slot hslot hok.moves ?_
              simp only [State.setPc, Function.update_self, hpc, Pc.remaining]
              omega
            next => simp at hstep
        | _ => simp [stepStaleSpin, hpc] at hstep
      next => simp at hstep
  | join =>
      simp only [plex] at hstep
      split at hstep
      next hready =>
        obtain ⟨rfl, rfl⟩ := by simpa using hstep
        simp [State.remaining, hready.1]
      next => simp at hstep
  | requestStop => exact absurd rfl haction

end Measure

/-! ## What a caller sees -/

/-- The phase protocol over one run of a plex call, and its completion. -/
structure PhaseSafe (call : Call) (trace : List Event) (state : State) :
    Prop where
  /-- A callback of a phase starts behind the ends of all earlier bodies. -/
  separated : ∀ earlier event later, trace = earlier ++ event :: later →
    ∀ phase, event.starts = some phase → ∀ before < phase,
      ∀ slot < call.participants, .bodyEnd before slot ∈ earlier
  /-- Every slot starts its bodies in phase order, none twice. -/
  ordered : ∀ slot < call.participants, ∃ started,
    bodyPhases trace slot = List.range started
  /-- So does slot 0 with the pre-phase hooks. -/
  hooksOrdered : ∃ started, prePhases trace = List.range started
  /-- In a call that ended without a stop or a throw every slot ran every
  phase. -/
  complete : state.outcome ≠ none → state.stopRequested = false →
    (∀ failure, .threw failure ∉ trace) →
    prePhases trace = List.range call.nPhases ∧
      ∀ slot < call.participants,
        bodyPhases trace slot = List.range call.nPhases ∧
        ∀ phase < call.nPhases, .bodyEnd phase slot ∈ trace
  /-- Behind a failure no callback of a later phase is ever started. -/
  halted : ∀ failure, .threw failure ∈ trace → ∀ event ∈ trace,
    ∀ phase, event.starts = some phase → phase ≤ failure.phase
  /-- Until the call has ended somebody can take a step. -/
  enabled : state.outcome = none → ∃ action after event,
    action ≠ .requestStop ∧
      (plex call).step state action = some (after, event)
  /-- Every such step leaves less to do. -/
  shorter : ∀ action after event, action ≠ .requestStop →
    (plex call).step state action = some (after, event) →
    after.remaining call < state.remaining call
  /-- So the call can always be completed. -/
  completes : ∃ later last,
    Run (plex call) (fun _ action => action ≠ .requestStop) state later last ∧
      last.outcome ≠ none
  /-- It ends when all slots have left: with one of the failures if there were
  any, and normally otherwise. -/
  outcome : ∀ outcome, state.outcome = some outcome →
    state.allLeft Pc.hasLeft call.participants = true ∧
      ((∃ failure, outcome = .rethrew failure ∧ .threw failure ∈ trace) ∨
        (outcome = .returned ∧ ∀ failure, .threw failure ∉ trace))

section Caller

variable {call : Call} {trace : List Event} {state : State}

theorem Inv.left_of_allLeft {slot : ℕ}
    (hall : state.allLeft Pc.hasLeft call.participants = true)
    (hslot : slot < call.participants) :
    ∃ passed why, state.pc slot = .left passed why := by
  have hleft := state.allLeft_iff.1 hall slot hslot
  cases hpc : state.pc slot with
  | left passed why => exact ⟨passed, why, rfl⟩
  | _ => simp [hpc, Pc.hasLeft] at hleft

/-- Once everybody has left, a failure that was thrown has been captured. -/
theorem Inv.firstException_of_threw (hinv : Inv call trace state)
    (hall : state.allLeft Pc.hasLeft call.participants = true)
    {failure : Failure} (hthrew : .threw failure ∈ trace) :
    state.firstException ≠ none := by
  have hslot : failure.slot < call.participants := hinv.bounded _ hthrew
  have hslotInv := hinv.slots failure.slot hslot
  obtain ⟨passed, why, hpc⟩ := Inv.left_of_allLeft hall hslot
  have hok := hslotInv.pcOk
  have hhistory := (hslotInv.mem_iff
    (show (Event.threw failure).slot = failure.slot from rfl)).1 hthrew
  rw [hpc] at hok hhistory
  cases why with
  | none =>
      rcases hhistory with hpassed | hcurrent
      · exact absurd hpassed (threw_notMem_passedEvents _ _ _)
      · simp [currentEvents] at hcurrent
  | some why =>
      exact hok.2.2 ((hslotInv.threw_phase rfl hthrew).2 passed why hpc)

/-- An ended, undisturbed call has every slot through every phase. -/
theorem Inv.passed_of_undisturbed (hinv : Inv call trace state)
    (hall : state.allLeft Pc.hasLeft call.participants = true)
    (hquiet : state.stopRequested = false)
    (hnever : ∀ failure, .threw failure ∉ trace) {slot : ℕ}
    (hslot : slot < call.participants) :
    state.pc slot = .left call.nPhases none := by
  have hclear : state.cancelled = false := by
    by_contra hset
    rcases hinv.disturbed (by simpa using hset) with hstop | hfirst
    · simp [hquiet] at hstop
    · obtain ⟨failure, hcaptured⟩ := Option.ne_none_iff_exists'.1 hfirst
      exact hnever failure (hinv.thrown failure hcaptured)
  obtain ⟨passed, why, hpc⟩ := Inv.left_of_allLeft hall hslot
  have hok := (hinv.slots slot hslot).pcOk
  rw [hpc] at hok
  cases why with
  | none => rw [hpc, hok.1]
  | some why => simp [PcOk, hclear] at hok

/-- For every number of phases, set of throwing callbacks, time of a stop
request and interleaving, a plex call keeps the phase protocol. -/
theorem phaseSafe_of_run (call : Call) {trace : List Event} {state : State}
    (run : Reaches (plex call) (start call) trace state) :
    PhaseSafe call trace state where
  separated := ordered_of_run run
  ordered slot hslot := by
    obtain ⟨started, hstarted, -⟩ :=
      ((inv_run run).slots slot hslot).bodyPhases_eq
    exact ⟨started, hstarted⟩
  hooksOrdered := by
    have htwo := call.two_le
    obtain ⟨started, hstarted, -⟩ :=
      ((inv_run run).slots 0 (by omega)).prePhases_eq
    exact ⟨started, hstarted⟩
  complete := by
    intro hended hquiet hnever
    have hinv := inv_run run
    have htwo := call.two_le
    obtain ⟨outcome, houtcome⟩ := Option.ne_none_iff_exists'.1 hended
    have hpassed : ∀ slot < call.participants,
        state.pc slot = .left call.nPhases none := fun slot hslot =>
      hinv.passed_of_undisturbed (hinv.outcome _ houtcome).1 hquiet hnever
        hslot
    refine ⟨?_, fun slot hslot => ⟨?_, fun phase hphase => ?_⟩⟩
    · obtain ⟨started, hstarted, hall⟩ :=
        (hinv.slots 0 (by omega)).prePhases_eq
      rw [hpassed 0 (by omega)] at hall
      rw [hstarted, hall rfl]
      rfl
    · obtain ⟨started, hstarted, hall⟩ :=
        (hinv.slots slot hslot).bodyPhases_eq
      rw [hpassed slot hslot] at hall
      rw [hstarted, hall rfl]
      rfl
    · rw [(hinv.slots slot hslot).bodyEnd_mem, hpassed slot hslot]
      exact hphase
  halted _ hthrew _ hevent _ hstarts :=
    starts_le_of_threw run hthrew hevent hstarts
  enabled hrunning := (inv_run run).exists_step hrunning
  shorter _ _ _ haction hstep := remaining_lt (inv_run run) haction hstep
  completes := by
    refine exists_completion (State.remaining call)
      (fun state => ∃ trace, Inv call trace state) ?_ ?_ ?_
      ⟨trace, inv_run run⟩
    · rintro state ⟨trace, hinv⟩ hrunning
      exact hinv.exists_step (by simpa using hrunning)
    · rintro state action after event ⟨trace, hinv⟩ _ hstep
      exact ⟨_, inv_step hinv hstep⟩
    · rintro state action after event ⟨trace, hinv⟩ haction hstep
      exact remaining_lt hinv haction hstep
  outcome := by
    intro outcome houtcome
    have hinv := inv_run run
    obtain ⟨hall, hvalue⟩ := hinv.outcome outcome houtcome
    refine ⟨hall, ?_⟩
    cases hfirst : state.firstException with
    | none =>
        refine .inr ⟨by rw [hvalue, hfirst]; rfl, fun failure hthrew => ?_⟩
        exact hinv.firstException_of_threw hall hthrew hfirst
    | some failure =>
        exact .inl ⟨failure, by rw [hvalue, hfirst]; rfl,
          hinv.thrown failure hfirst⟩

end Caller

/-- Two slots and three phases; the worker's body throws in the second. -/
def throwingCall : Call where
  participants := 2
  two_le := Nat.one_lt_two
  nPhases := 3
  nPhases_pos := by decide
  prePhaseThrows := fun _ => false
  throws := fun phase slot => phase == 1 && slot == 1
  epochs := .fresh

/-- Slot 0 runs ahead where it can. -/
def throwingSchedule : List Action :=
  List.flatten [List.replicate 6 (.slot 0), List.replicate 4 (.slot 1),
    List.replicate 7 (.slot 0), List.replicate 6 (.slot 1),
    List.replicate 6 (.slot 0), [.join]]

theorem phaseSafe_throwingCall :
    ∃ trace state, state.outcome = some (.rethrew (.body 1 1)) ∧
      PhaseSafe throwingCall trace state := by
  obtain ⟨trace, state, run, hended⟩ :=
    reaches_of_check (plex throwingCall) (start throwingCall) throwingSchedule
      (fun _ state => state.outcome = some (.rethrew (.body 1 1)))
      (by decide +kernel)
  exact ⟨trace, state, by simpa using hended, phaseSafe_of_run _ run⟩

/-! ## The stamps a call leaves behind -/

theorem stampBound_le_nPhases {call : Call} {state : State} {slot : ℕ}
    {pc : Pc} (hok : PcOk call state slot pc) :
    pc.stampBound call ≤ call.nPhases := by
  cases pc with
  | pollToken phase | loadCancelled phase | inPrePhase phase | publish phase
  | publishLeaving phase why | stampLeaving phase why | published phase
  | stampObserved phase => exact hok.2.1.le
  | joinPhase phase peer | joinLeaving phase peer why =>
      exact Nat.succ_le_of_lt hok.2.1
  | spin phase => exact Nat.le_of_lt hok.2
  | inBody phase | capture phase why | storeCancelled phase why
  | stampPhase phase => exact hok.1.le
  | stampFinal phase why | left passed why => exact le_rfl

/-- Every stamp stays inside the interval the call reserved. -/
theorem done_le_of_run {call : Call} {trace : List Event} {state : State}
    (run : Reaches (plex call) (start call) trace state) (slot : ℕ) :
    state.done slot ≤ call.epochs.epochBase + (call.nPhases + 1) := by
  by_cases hslot : slot < call.participants
  · have hinv := (inv_run run).slots slot hslot
    have hbound := stampBound_le_nPhases hinv.pcOk
    have hdone := hinv.done_le
    omega
  · have hkept : (∃ trace, Inv call trace state) ∧
        state.done slot = call.epochs.done slot := by
      refine run.invariant (fun _ state => (∃ trace, Inv call trace state) ∧
        state.done slot = call.epochs.done slot) ⟨⟨_, inv_start call⟩, rfl⟩ ?_
      rintro trace before action after event ⟨⟨trace', hinv⟩, hold⟩ - hstep
      refine ⟨⟨_, inv_step hinv hstep⟩, ?_⟩
      cases action with
      | slot mover =>
          simp only [plex] at hstep
          split at hstep
          next hmover =>
            obtain ⟨pc, hok⟩ := stepSlot_ok hinv hmover hstep
            rw [hok.moves.others slot (by omega), hold]
          next => simp at hstep
      | staleSpin mover =>
          simp only [plex, stepStaleSpin] at hstep
          repeat' split at hstep
          all_goals
            simp only [reduceCtorEq, Option.some.injEq, Prod.mk.injEq] at hstep
          obtain ⟨rfl, rfl⟩ := hstep
          exact hold
      | join =>
          simp only [plex] at hstep
          split at hstep
          · obtain ⟨rfl, rfl⟩ := by simpa using hstep
            exact hold
          · simp at hstep
      | requestStop =>
          obtain ⟨rfl, rfl⟩ := by simpa [plex] using hstep
          exact hold
    have := call.epochs.done_le slot
    omega

/-- The block the next plex call finds. -/
def nextEpochs {call : Call} {trace : List Event} {state : State}
    (run : Reaches (plex call) (start call) trace state) : PlexEpochs :=
  call.epochs.advance (call.nPhases + 1) state.done (done_le_of_run run)

end Citor.Plex
