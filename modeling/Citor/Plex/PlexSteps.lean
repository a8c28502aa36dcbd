import Citor.Plex.PlexInvariant

/-!
# Every step of a plex call keeps the invariant

One lemma for each place a slot can stand, then the whole machine.
-/

namespace Citor.Plex

open Citor.Interleaving
open Citor.DoneSlots
open Citor.SlotRunners

/-! ## What a clear flag says -/

section Clear

variable {call : Call} {trace : List Event} {state : State} {slot : ℕ}

/-- While the flag is clear a slot stamps no phase it is not through. -/
theorem stampBound_le_passed {pc : Pc} (hok : PcOk call state slot pc)
    (hclear : state.cancelled = false) :
    pc.stampBound call ≤ pc.passed := by
  cases pc with
  | joinPhase phase peer => exact le_rfl
  | stampPhase phase => exact Nat.le_succ phase
  | joinLeaving phase peer why => simp [PcOk, hclear] at hok
  | stampFinal phase why => simp [PcOk, hclear] at hok
  | left passed why =>
      cases why with
      | none => exact hok.1.ge
      | some why => simp [PcOk, hclear] at hok
  | _ => exact le_rfl

/-- While the flag is clear slot 0 has joined the phases behind it. -/
theorem joined_of_clear {pc : Pc} (hok : PcOk call state 0 pc)
    (hclear : state.cancelled = false) :
    Joined call state pc.phase := by
  cases pc with
  | pollToken phase => exact hok.2.2
  | loadCancelled phase => exact hok.2.2
  | inPrePhase phase => exact hok.2.2.1
  | publish phase => exact hok.2.2.1
  | joinPhase phase peer => exact hok.2.2.1
  | inBody phase => exact hok.2.2 rfl
  | stampPhase phase => exact hok.2.2 rfl
  | capture phase why => exact hok.2.2.2 rfl
  | storeCancelled phase why => exact hok.2.2.1 rfl
  | left passed why =>
      cases why with
      | none => exact hok.2 rfl
      | some why => simp [PcOk, hclear] at hok
  | _ => simp [PcOk, hclear] at hok

theorem publishedPhase_le (pc : Pc) : pc.publishedPhase ≤ pc.phase + 1 := by
  cases pc with
  | capture phase why | storeCancelled phase why =>
      simp only [Pc.publishedPhase, Pc.phase]
      split <;> omega
  | left passed why =>
      cases why <;> simp [Pc.publishedPhase, Pc.phase]
  | _ => simp [Pc.publishedPhase, Pc.phase]

theorem phase_le_passed (pc : Pc) : pc.phase ≤ pc.passed := by
  cases pc <;> simp [Pc.phase, Pc.passed]

/-- While the flag is clear, stamped phases are finished phases. -/
theorem Inv.ready (hinv : Inv call trace state)
    (hclear : state.cancelled = false) {phase : ℕ}
    (hproducer : phase ≤ (state.pc 0).passed)
    (hjoined : Joined call state phase) : Ready call state phase := by
  intro slot hslot
  by_cases hzero : slot = 0
  · rwa [hzero]
  · have hslotInv := hinv.slots slot hslot
    have hbound := stampBound_le_passed hslotInv.pcOk hclear
    have hdone := hslotInv.done_le
    cases phase with
    | zero => exact Nat.zero_le _
    | succ before =>
        have hstamp := hjoined slot (by omega) hslot before (by omega)
        rw [Call.stamp] at hstamp
        omega

/-- A worker that sees a phase published under a clear flag finds everybody
through the phases before it. -/
theorem Inv.ready_of_published (hinv : Inv call trace state)
    (hclear : state.cancelled = false) {phase : ℕ}
    (hphase : phase + 1 ≤ state.own.currentPhase) : Ready call state phase := by
  have htwo := call.two_le
  have hok := (hinv.slots 0 (by omega)).pcOk
  have hpublished := publishedPhase_le (state.pc 0)
  rw [hinv.published] at hphase
  have hreached : phase ≤ (state.pc 0).phase := by omega
  exact hinv.ready hclear (hreached.trans (phase_le_passed _))
    ((joined_of_clear hok hclear).lower hreached)

end Clear

/-! ## The head of the phase loop -/

section Entry

variable {call : Call} {state : State} {phase slot : ℕ}

theorem enterPhase_cases (call : Call) (phase slot : ℕ) :
    (phase < call.nPhases ∧ slot = 0 ∧
        enterPhase call phase slot = .pollToken phase) ∨
      (phase < call.nPhases ∧ slot ≠ 0 ∧
        enterPhase call phase slot = .spin phase) ∨
      (call.nPhases ≤ phase ∧
        enterPhase call phase slot = .left phase none) := by
  unfold enterPhase
  by_cases hphase : phase < call.nPhases
  · by_cases hslot : slot = 0 <;> simp [hphase, hslot]
  · simp [hphase, Nat.not_lt.1 hphase]

@[simp]
theorem passed_enterPhase : (enterPhase call phase slot).passed = phase := by
  obtain ⟨-, -, h⟩ | ⟨-, -, h⟩ | ⟨-, h⟩ := enterPhase_cases call phase slot <;>
    simp [h, Pc.passed, Pc.phase]

@[simp]
theorem publishedPhase_enterPhase :
    (enterPhase call phase slot).publishedPhase = phase := by
  obtain ⟨-, -, h⟩ | ⟨-, -, h⟩ | ⟨-, h⟩ := enterPhase_cases call phase slot <;>
    simp [h, Pc.publishedPhase, Pc.phase]

@[simp]
theorem currentEvents_enterPhase :
    currentEvents slot (enterPhase call phase slot) = [] := by
  obtain ⟨-, -, h⟩ | ⟨-, -, h⟩ | ⟨-, h⟩ := enterPhase_cases call phase slot <;>
    simp [h, currentEvents]

theorem stampBound_enterPhase (hphase : phase ≤ call.nPhases) :
    (enterPhase call phase slot).stampBound call = phase := by
  obtain ⟨-, -, h⟩ | ⟨-, -, h⟩ | ⟨hend, h⟩ :=
    enterPhase_cases call phase slot <;> simp only [h, Pc.stampBound, Pc.phase]
  omega

theorem stamped_enterPhase (hphase : phase ≤ call.nPhases) :
    (enterPhase call phase slot).stamped call = phase := by
  obtain ⟨-, -, h⟩ | ⟨-, -, h⟩ | ⟨hend, h⟩ :=
    enterPhase_cases call phase slot <;> simp only [h, Pc.stamped, Pc.phase]
  omega

theorem pcOk_enterPhase (hphase : phase ≤ call.nPhases)
    (hjoined : slot = 0 → Joined call state phase) :
    PcOk call state slot (enterPhase call phase slot) := by
  obtain ⟨hlt, hslot, h⟩ | ⟨hlt, hslot, h⟩ | ⟨hend, h⟩ :=
    enterPhase_cases call phase slot
  · rw [h]
    exact ⟨hslot, hlt, hjoined hslot⟩
  · rw [h]
    exact ⟨hslot, hlt⟩
  · rw [h]
    exact ⟨by omega, hjoined⟩

/-- Behind the last peer of a join the phase itself is joined. -/
theorem joined_succ (hjoined : Joined call state phase)
    (hupTo : JoinedUpTo call state phase call.participants) :
    Joined call state (phase + 1) := by
  intro peer hpos hpeer before hbefore
  rcases Nat.lt_succ_iff_lt_or_eq.1 hbefore with hless | rfl
  · exact hjoined peer hpos hpeer before hless
  · exact hupTo peer hpos hpeer

theorem joinedUpTo_succ {peer : ℕ} (hupTo : JoinedUpTo call state phase peer)
    (hpeer : call.stamp phase ≤ state.done peer) :
    JoinedUpTo call state phase (peer + 1) := by
  intro earlier hpos hearlier
  rcases Nat.lt_succ_iff_lt_or_eq.1 hearlier with hless | rfl
  · exact hupTo earlier hpos hless
  · exact hpeer

theorem joinedUpTo_one : JoinedUpTo call state phase 1 := by
  intro earlier hpos hearlier
  omega

end Entry

/-! ## One lemma for each program counter -/

/-- What a step of `slot` to `pc` establishes. -/
structure StepOk (call : Call) (trace : List Event) (before : State)
    (slot : ℕ) (pc : Pc) (after : State) (event : Option Event) : Prop where
  moves : Moves slot pc before after
  slotInv : SlotInv call (trace ++ event.toList) after slot
  published : slot = 0 → after.own.currentPhase = pc.publishedPhase
  kept : slot ≠ 0 → after.own.currentPhase = before.own.currentPhase
  event : ∀ emitted ∈ event, emitted.slot = slot

section Steps

variable {call : Call} {trace : List Event} {before after : State}
variable {slot : ℕ} {event : Option Event}

/-- A step that moves the program counter and nothing else. -/
theorem Inv.setPc (hinv : Inv call trace before)
    (hslot : slot < call.participants) {pc : Pc}
    (hpassed : (before.pc slot).passed ≤ pc.passed)
    (hok : PcOk call before slot pc)
    (hbound : (before.pc slot).stampBound call ≤ pc.stampBound call)
    (hstamped : slot ≠ 0 → pc.stamped call ≤ (before.pc slot).stamped call)
    (hpublished : slot = 0 →
      (before.pc slot).publishedPhase = pc.publishedPhase)
    (hevent : ∀ emitted ∈ event, emitted.slot = slot)
    (hhistory : passedEvents slot pc.passed ++ currentEvents slot pc =
      passedEvents slot (before.pc slot).passed ++
        currentEvents slot (before.pc slot) ++ event.toList) :
    StepOk call trace before slot pc (before.setPc slot pc) event := by
  have hmoves : Moves slot pc before (before.setPc slot pc) :=
    Moves.ofSetPc hpassed
  refine ⟨hmoves, (hinv.slots slot hslot).quiet hmoves rfl
    (hok.mono hmoves.grows) hbound hstamped hevent hhistory, ?_, fun _ => rfl,
    hevent⟩
  intro hzero
  rw [← hpublished hzero]
  subst hzero
  exact hinv.published

/-- A step that stamps. -/
theorem Inv.stampPc (hinv : Inv call trace before)
    (hslot : slot < call.participants) {pc : Pc} {epoch : ℕ}
    (hpassed : (before.pc slot).passed ≤ pc.passed)
    (hepoch : before.done slot ≤ epoch)
    (hbound : epoch ≤ call.epochs.epochBase + pc.stampBound call)
    (hstamped : slot ≠ 0 → ∀ phase < pc.stamped call,
      call.stamp phase ≤ epoch)
    (hpublished : slot = 0 →
      (before.pc slot).publishedPhase = pc.publishedPhase)
    (hok : Grows before ((before.stamp slot epoch).setPc slot pc) →
      PcOk call ((before.stamp slot epoch).setPc slot pc) slot pc)
    (hhistory : passedEvents slot pc.passed ++ currentEvents slot pc =
      passedEvents slot (before.pc slot).passed ++
        currentEvents slot (before.pc slot)) :
    StepOk call trace before slot pc
      ((before.stamp slot epoch).setPc slot pc) none := by
  have hmoves := Moves.ofStamp hpassed hepoch
  have hdone : ((before.stamp slot epoch).setPc slot pc).done slot =
      epoch := by
    simp [State.setPc, State.stamp]
  refine ⟨hmoves, (hinv.slots slot hslot).moved hmoves (hok hmoves.grows) ?_ ?_
    (by simp) (by simpa using hhistory), ?_, fun _ => rfl, by simp⟩
  · rwa [hdone]
  · rwa [hdone]
  · intro hzero
    rw [← hpublished hzero]
    subst hzero
    exact hinv.published

theorem pollToken_ok (hinv : Inv call trace before)
    (hslot : slot < call.participants) {phase : ℕ}
    (hpc : before.pc slot = .pollToken phase)
    (hstep : stepSlot call before slot = some (after, event)) :
    ∃ pc, StepOk call trace before slot pc after event := by
  have hok := (hinv.slots slot hslot).pcOk
  rw [hpc] at hok
  obtain ⟨hzero, hphase, hjoined⟩ := hok
  simp only [stepSlot, hpc] at hstep
  split at hstep
  next hstop =>
    obtain ⟨rfl, rfl⟩ := by simpa using hstep
    refine ⟨_, hinv.setPc hslot ?_ ?_ ?_ ?_ ?_ (by simp) ?_⟩
    · simp [hpc, Pc.passed, Pc.phase]
    · exact ⟨hphase, fun hworker => absurd hzero hworker, fun _ => hjoined,
        fun hwhy => absurd rfl hwhy, fun _ => .inl hstop⟩
    · simp [hpc, Pc.stampBound, Pc.phase]
    · simp [hpc, Pc.stamped, Pc.phase]
    · simp [hpc, Pc.publishedPhase, Pc.phase]
    · simp [hpc, Pc.passed, Pc.phase, currentEvents, leavingEvents]
  next =>
    obtain ⟨rfl, rfl⟩ := by simpa using hstep
    refine ⟨_, hinv.setPc hslot ?_ ?_ ?_ ?_ ?_ (by simp) ?_⟩
    · simp [hpc, Pc.passed, Pc.phase]
    · exact ⟨hzero, hphase, hjoined⟩
    · simp [hpc, Pc.stampBound, Pc.phase]
    · simp [hpc, Pc.stamped, Pc.phase]
    · simp [hpc, Pc.publishedPhase, Pc.phase]
    · simp [hpc, Pc.passed, Pc.phase, currentEvents]

theorem loadCancelled_ok (hinv : Inv call trace before)
    (hslot : slot < call.participants) {phase : ℕ}
    (hpc : before.pc slot = .loadCancelled phase)
    (hstep : stepSlot call before slot = some (after, event)) :
    ∃ pc, StepOk call trace before slot pc after event := by
  have hok := (hinv.slots slot hslot).pcOk
  rw [hpc] at hok
  obtain ⟨hzero, hphase, hjoined⟩ := hok
  simp only [stepSlot, hpc] at hstep
  split at hstep
  next hset =>
    obtain ⟨rfl, rfl⟩ := by simpa using hstep
    refine ⟨_, hinv.setPc hslot ?_ ?_ ?_ ?_ ?_ (by simp) ?_⟩
    · simp [hpc, Pc.passed, Pc.phase]
    · exact ⟨hphase, fun hworker => absurd hzero hworker, fun _ => hjoined,
        fun hwhy => absurd rfl hwhy, fun _ => .inr hset⟩
    · simp [hpc, Pc.stampBound, Pc.phase]
    · simp [hpc, Pc.stamped, Pc.phase]
    · simp [hpc, Pc.publishedPhase, Pc.phase]
    · simp [hpc, Pc.passed, Pc.phase, currentEvents, leavingEvents]
  next hclear =>
    obtain ⟨rfl, rfl⟩ := by simpa using hstep
    have hready : Ready call before phase := by
      refine hinv.ready (by simpa using hclear) ?_ hjoined
      rw [← hzero, hpc]
      exact le_rfl
    refine ⟨_, hinv.setPc hslot ?_ ?_ ?_ ?_ ?_ ?_ ?_⟩
    · simp [hpc, Pc.passed, Pc.phase]
    · exact ⟨hzero, hphase, hjoined, hready⟩
    · simp [hpc, Pc.stampBound, Pc.phase]
    · simp [hpc, Pc.stamped, Pc.phase]
    · simp [hpc, Pc.publishedPhase, Pc.phase]
    · simp [Event.slot, hzero]
    · simp [hpc, Pc.passed, Pc.phase, currentEvents]

theorem inPrePhase_ok (hinv : Inv call trace before)
    (hslot : slot < call.participants) {phase : ℕ}
    (hpc : before.pc slot = .inPrePhase phase)
    (hstep : stepSlot call before slot = some (after, event)) :
    ∃ pc, StepOk call trace before slot pc after event := by
  have hok := (hinv.slots slot hslot).pcOk
  rw [hpc] at hok
  obtain ⟨hzero, hphase, hjoined, hready⟩ := hok
  simp only [stepSlot, hpc] at hstep
  split at hstep
  next =>
    obtain ⟨rfl, rfl⟩ := by simpa using hstep
    refine ⟨_, hinv.setPc hslot ?_ ?_ ?_ ?_ ?_ ?_ ?_⟩
    · simp [hpc, Pc.passed, Pc.phase]
    · exact ⟨hphase, by simp, fun hworker => absurd hzero hworker,
        fun _ => hjoined⟩
    · simp [hpc, Pc.stampBound, Pc.phase]
    · simp [hpc, Pc.stamped, Pc.phase]
    · simp [hpc, Pc.publishedPhase, Pc.phase]
    · simp [Event.slot, Failure.slot, hzero]
    · simp [hpc, Pc.passed, Pc.phase, currentEvents, leavingEvents]
  next =>
    obtain ⟨rfl, rfl⟩ := by simpa using hstep
    refine ⟨_, hinv.setPc hslot ?_ ?_ ?_ ?_ ?_ ?_ ?_⟩
    · simp [hpc, Pc.passed, Pc.phase]
    · exact ⟨hzero, hphase, hjoined, hready⟩
    · simp [hpc, Pc.stampBound, Pc.phase]
    · simp [hpc, Pc.stamped, Pc.phase]
    · simp [hpc, Pc.publishedPhase, Pc.phase]
    · simp [Event.slot, hzero]
    · simp [hpc, Pc.passed, Pc.phase, currentEvents]

/-- A step that stores a shared word. -/
theorem Inv.storePc (hinv : Inv call trace before)
    (hslot : slot < call.participants) {pc : Pc}
    (hmoves : Moves slot pc before after)
    (hdone : after.done slot = before.done slot)
    (hok : PcOk call after slot pc)
    (hbound : (before.pc slot).stampBound call ≤ pc.stampBound call)
    (hstamped : slot ≠ 0 → pc.stamped call ≤ (before.pc slot).stamped call)
    (hpublished : slot = 0 → after.own.currentPhase = pc.publishedPhase)
    (hkept : slot ≠ 0 → after.own.currentPhase = before.own.currentPhase)
    (hevent : ∀ emitted ∈ event, emitted.slot = slot)
    (hhistory : passedEvents slot pc.passed ++ currentEvents slot pc =
      passedEvents slot (before.pc slot).passed ++
        currentEvents slot (before.pc slot) ++ event.toList) :
    StepOk call trace before slot pc after event :=
  ⟨hmoves, (hinv.slots slot hslot).quiet hmoves hdone hok hbound hstamped
    hevent hhistory, hpublished, hkept, hevent⟩

theorem publish_ok (hinv : Inv call trace before)
    (hslot : slot < call.participants) {phase : ℕ}
    (hpc : before.pc slot = .publish phase)
    (hstep : stepSlot call before slot = some (after, event)) :
    ∃ pc, StepOk call trace before slot pc after event := by
  have hok := (hinv.slots slot hslot).pcOk
  rw [hpc] at hok
  obtain ⟨hzero, hphase, hjoined, hready⟩ := hok
  have hcurrent : before.own.currentPhase = phase := by
    rw [hinv.published, ← hzero, hpc]
    rfl
  obtain ⟨rfl, rfl⟩ := by simpa [stepSlot, hpc] using hstep
  have hmoves : Moves slot (.inBody phase) before
      ({ before with own.currentPhase := phase + 1 }.setPc slot
        (.inBody phase)) := by
    refine ⟨⟨rfl, ?_, fun _ _ => rfl, le_rfl, id, rfl, id, rfl⟩, ?_⟩
    · simp [hpc, Pc.passed, Pc.phase]
    · rw [hcurrent]
      exact Nat.le_succ phase
  refine ⟨_, hinv.storePc hslot hmoves rfl ?_ ?_ ?_ ?_ ?_ ?_ ?_⟩
  · exact ⟨hphase, hready.mono hmoves.grows,
      fun _ => hjoined.mono hmoves.grows⟩
  · simp [hpc, Pc.stampBound, Pc.phase]
  · simp [hpc, Pc.stamped, Pc.phase]
  · exact fun _ => rfl
  · exact fun hworker => absurd hzero hworker
  · simp [Event.slot]
  · rw [hpc]
    simp [Pc.passed, Pc.phase, currentEvents, preEvents, hzero]

theorem joinPhase_ok (hinv : Inv call trace before)
    (hslot : slot < call.participants) {phase peer : ℕ}
    (hpc : before.pc slot = .joinPhase phase peer)
    (hstep : stepSlot call before slot = some (after, event)) :
    ∃ pc, StepOk call trace before slot pc after event := by
  have hok := (hinv.slots slot hslot).pcOk
  rw [hpc] at hok
  obtain ⟨hzero, hphase, hjoined, hpos, hpeer, hupTo⟩ := hok
  simp only [stepSlot, hpc] at hstep
  split at hstep
  · simp at hstep
  next hreached =>
    have hnext := joinedUpTo_succ hupTo (Nat.not_lt.1 hreached)
    split at hstep
    next hmore =>
      obtain ⟨rfl, rfl⟩ := by simpa using hstep
      refine ⟨_, hinv.setPc hslot ?_ ?_ ?_ ?_ ?_ (by simp) ?_⟩
      · simp [hpc, Pc.passed]
      · exact ⟨hzero, hphase, hjoined, by omega, hmore, hnext⟩
      · simp [hpc, Pc.stampBound]
      · simp [hpc, Pc.stamped, Pc.phase]
      · simp [hpc, Pc.publishedPhase]
      · simp [hpc, Pc.passed, currentEvents]
    next hlast =>
      obtain ⟨rfl, rfl⟩ := by simpa using hstep
      have hall : JoinedUpTo call before phase call.participants := by
        have hpeers : peer + 1 = call.participants := by omega
        rwa [hpeers] at hnext
      refine ⟨_, hinv.setPc hslot ?_ ?_ ?_ ?_ ?_ (by simp) ?_⟩
      · rw [hpc, passed_enterPhase]
        exact le_rfl
      · exact pcOk_enterPhase hphase fun _ => joined_succ hjoined hall
      · rw [hpc, stampBound_enterPhase hphase]
        exact le_rfl
      · exact fun hworker => absurd hzero hworker
      · intro _
        rw [hpc, publishedPhase_enterPhase]
        rfl
      · rw [hpc, passed_enterPhase, currentEvents_enterPhase]
        simp [Pc.passed, currentEvents]

theorem publishLeaving_ok (hinv : Inv call trace before)
    (hslot : slot < call.participants) {phase : ℕ} {why : Leaving}
    (hpc : before.pc slot = .publishLeaving phase why)
    (hstep : stepSlot call before slot = some (after, event)) :
    ∃ pc, StepOk call trace before slot pc after event := by
  have hok := (hinv.slots slot hslot).pcOk
  rw [hpc] at hok
  obtain ⟨hzero, hphase, hwhy, hset, hcaptured⟩ := hok
  have htwo := call.two_le
  have hcurrent : before.own.currentPhase = phase := by
    rw [hinv.published, ← hzero, hpc]
    rfl
  obtain ⟨rfl, rfl⟩ := by simpa [stepSlot, hpc] using hstep
  have hmoves : ∀ pc : Pc, pc.passed = phase →
      Moves slot pc before
        ({ before with own.currentPhase := phase + 1 }.setPc slot pc) := by
    intro pc hpassed
    refine ⟨⟨rfl, ?_, fun _ _ => rfl, le_rfl, id, rfl, id, rfl⟩, ?_⟩
    · rw [hpassed, hpc]
      exact le_rfl
    · rw [hcurrent]
      exact Nat.le_succ phase
  by_cases hstop : why = Leaving.cancelled
  · simp only [hstop, if_true]
    have hgrows := (hmoves (.joinLeaving phase 1 .cancelled) rfl).grows
    refine ⟨_, hinv.storePc hslot (hmoves _ rfl) rfl ?_ ?_ ?_ ?_ ?_
      (by simp) ?_⟩
    · rw [hstop] at hcaptured
      exact ⟨hzero, hphase, le_rfl, htwo, hgrows.cancelled hset,
        hcaptured.mono hgrows⟩
    · simp [hpc, Pc.stampBound, Pc.phase]
    · exact fun hworker => absurd hzero hworker
    · exact fun _ => rfl
    · exact fun hworker => absurd hzero hworker
    · simp [hpc, Pc.passed, Pc.phase, currentEvents, hstop]
  · simp only [hstop, if_false]
    have hgrows := (hmoves (.stampLeaving phase why) rfl).grows
    refine ⟨_, hinv.storePc hslot (hmoves _ rfl) rfl ?_ ?_ ?_ ?_ ?_
      (by simp) ?_⟩
    · exact ⟨hzero, hphase, hstop, hgrows.cancelled hset,
        hcaptured.mono hgrows⟩
    · simp [hpc, Pc.stampBound, Pc.phase]
    · exact fun hworker => absurd hzero hworker
    · exact fun _ => rfl
    · exact fun hworker => absurd hzero hworker
    · simp [hpc, Pc.passed, Pc.phase, currentEvents]

theorem stampLeaving_ok (hinv : Inv call trace before)
    (hslot : slot < call.participants) {phase : ℕ} {why : Leaving}
    (hpc : before.pc slot = .stampLeaving phase why)
    (hstep : stepSlot call before slot = some (after, event)) :
    ∃ pc, StepOk call trace before slot pc after event := by
  have hok := (hinv.slots slot hslot).pcOk
  have hdone := (hinv.slots slot hslot).done_le
  have htwo := call.two_le
  rw [hpc] at hok hdone
  obtain ⟨hzero, hphase, hwhy, hset, hcaptured⟩ := hok
  simp only [Pc.stampBound, Pc.phase] at hdone
  obtain ⟨rfl, rfl⟩ := by simpa [stepSlot, hpc] using hstep
  refine ⟨_, hinv.stampPc hslot ?_ ?_ ?_ ?_ ?_ ?_ ?_⟩
  · simp [hpc, Pc.passed, Pc.phase]
  · rw [Call.stamp]
    omega
  · simp [Call.stamp, Pc.stampBound]
  · exact fun hworker => absurd hzero hworker
  · simp [hpc, Pc.publishedPhase]
  · exact fun hgrows => ⟨hzero, hphase, le_rfl, htwo,
      hgrows.cancelled hset, hcaptured.mono hgrows⟩
  · simp [hpc, Pc.passed, Pc.phase, currentEvents]

theorem joinLeaving_ok (hinv : Inv call trace before)
    (hslot : slot < call.participants) {phase peer : ℕ} {why : Leaving}
    (hpc : before.pc slot = .joinLeaving phase peer why)
    (hstep : stepSlot call before slot = some (after, event)) :
    ∃ pc, StepOk call trace before slot pc after event := by
  have hok := (hinv.slots slot hslot).pcOk
  rw [hpc] at hok
  obtain ⟨hzero, hphase, hpos, hpeer, hset, hcaptured⟩ := hok
  simp only [stepSlot, hpc] at hstep
  split at hstep
  · simp at hstep
  next =>
    split at hstep
    next hmore =>
      obtain ⟨rfl, rfl⟩ := by simpa using hstep
      refine ⟨_, hinv.setPc hslot ?_ ?_ ?_ ?_ ?_ (by simp) ?_⟩
      · simp [hpc, Pc.passed, Pc.phase]
      · exact ⟨hzero, hphase, by omega, hmore, hset, hcaptured⟩
      · simp [hpc, Pc.stampBound]
      · simp [hpc, Pc.stamped, Pc.phase]
      · simp [hpc, Pc.publishedPhase]
      · simp [hpc, Pc.passed, Pc.phase, currentEvents]
    next =>
      obtain ⟨rfl, rfl⟩ := by simpa using hstep
      refine ⟨_, hinv.setPc hslot ?_ ?_ ?_ ?_ ?_ (by simp) ?_⟩
      · simp [hpc, Pc.passed, Pc.phase]
      · exact ⟨hphase, hset, hcaptured⟩
      · simp only [hpc, Pc.stampBound]
        omega
      · exact fun hworker => absurd hzero hworker
      · simp [hpc, Pc.publishedPhase]
      · simp [hpc, Pc.passed, Pc.phase, currentEvents]

/-- A worker leaves its spin loop on the flag. -/
theorem spinCancelled_ok (hinv : Inv call trace before)
    (hslot : slot < call.participants) {phase : ℕ}
    (hpc : before.pc slot = .spin phase)
    (hset : before.cancelled = true) :
    StepOk call trace before slot (.stampFinal phase .cancelled)
      (before.setPc slot (.stampFinal phase .cancelled)) none := by
  have hok := (hinv.slots slot hslot).pcOk
  rw [hpc] at hok
  obtain ⟨hworker, hphase⟩ := hok
  refine hinv.setPc hslot ?_ ?_ ?_ ?_ ?_ (by simp) ?_
  · simp [hpc, Pc.passed, Pc.phase]
  · exact ⟨hworker, hphase, by simp, hset, fun hwhy => absurd rfl hwhy⟩
  · simp only [hpc, Pc.stampBound, Pc.phase]
    omega
  · simp [hpc, Pc.stamped, Pc.phase]
  · exact fun hzero => absurd hzero hworker
  · simp [hpc, Pc.passed, Pc.phase, currentEvents, leavingEvents]

theorem spin_ok (hinv : Inv call trace before)
    (hslot : slot < call.participants) {phase : ℕ}
    (hpc : before.pc slot = .spin phase)
    (hstep : stepSlot call before slot = some (after, event)) :
    ∃ pc, StepOk call trace before slot pc after event := by
  have hok := (hinv.slots slot hslot).pcOk
  rw [hpc] at hok
  obtain ⟨hworker, hphase⟩ := hok
  simp only [stepSlot, hpc] at hstep
  split at hstep
  next hpublished =>
    obtain ⟨rfl, rfl⟩ := by simpa using hstep
    refine ⟨_, hinv.setPc hslot ?_ ?_ ?_ ?_ ?_ (by simp) ?_⟩
    · simp [hpc, Pc.passed, Pc.phase]
    · exact ⟨hworker, hphase, hpublished⟩
    · simp [hpc, Pc.stampBound, Pc.phase]
    · simp [hpc, Pc.stamped, Pc.phase]
    · exact fun hzero => absurd hzero hworker
    · simp [hpc, Pc.passed, Pc.phase, currentEvents]
  next =>
    split at hstep
    next hset =>
      obtain ⟨rfl, rfl⟩ := by simpa using hstep
      exact ⟨_, spinCancelled_ok hinv hslot hpc hset⟩
    next => simp at hstep

theorem published_ok (hinv : Inv call trace before)
    (hslot : slot < call.participants) {phase : ℕ}
    (hpc : before.pc slot = .published phase)
    (hstep : stepSlot call before slot = some (after, event)) :
    ∃ pc, StepOk call trace before slot pc after event := by
  have hok := (hinv.slots slot hslot).pcOk
  rw [hpc] at hok
  obtain ⟨hworker, hphase, hcurrent⟩ := hok
  simp only [stepSlot, hpc] at hstep
  split at hstep
  next hset =>
    obtain ⟨rfl, rfl⟩ := by simpa using hstep
    refine ⟨_, hinv.setPc hslot ?_ ?_ ?_ ?_ ?_ (by simp) ?_⟩
    · simp [hpc, Pc.passed, Pc.phase]
    · exact ⟨hworker, hphase, hset⟩
    · simp [hpc, Pc.stampBound, Pc.phase]
    · simp [hpc, Pc.stamped, Pc.phase]
    · exact fun hzero => absurd hzero hworker
    · simp [hpc, Pc.passed, Pc.phase, currentEvents]
  next hclear =>
    obtain ⟨rfl, rfl⟩ := by simpa using hstep
    have hready := hinv.ready_of_published (by simpa using hclear) hcurrent
    refine ⟨_, hinv.setPc hslot ?_ ?_ ?_ ?_ ?_ ?_ ?_⟩
    · simp [hpc, Pc.passed, Pc.phase]
    · exact ⟨hphase, hready, fun hzero => absurd hzero hworker⟩
    · simp [hpc, Pc.stampBound, Pc.phase]
    · simp [hpc, Pc.stamped, Pc.phase]
    · exact fun hzero => absurd hzero hworker
    · simp [Event.slot]
    · simp [hpc, Pc.passed, Pc.phase, currentEvents, preEvents, hworker]

theorem stampObserved_ok (hinv : Inv call trace before)
    (hslot : slot < call.participants) {phase : ℕ}
    (hpc : before.pc slot = .stampObserved phase)
    (hstep : stepSlot call before slot = some (after, event)) :
    ∃ pc, StepOk call trace before slot pc after event := by
  have hok := (hinv.slots slot hslot).pcOk
  have hdone := (hinv.slots slot hslot).done_le
  rw [hpc] at hok hdone
  obtain ⟨hworker, hphase, hset⟩ := hok
  simp only [Pc.stampBound, Pc.phase] at hdone
  have hepoch : before.done slot ≤ call.stamp phase := by
    rw [Call.stamp]
    omega
  obtain ⟨rfl, rfl⟩ := by simpa [stepSlot, hpc] using hstep
  split
  next hmore =>
    refine ⟨_, hinv.stampPc hslot ?_ hepoch ?_ ?_ ?_ ?_ ?_⟩
    · simp [hpc, Pc.passed, Pc.phase]
    · simp only [Call.stamp, Pc.stampBound]
      omega
    · intro _ earlier hearlier
      simp only [Pc.stamped, Pc.phase] at hearlier
      simp only [Call.stamp]
      omega
    · exact fun hzero => absurd hzero hworker
    · exact fun hgrows => ⟨hworker, hphase, by simp,
        hgrows.cancelled hset, fun hwhy => absurd rfl hwhy⟩
    · simp [hpc, Pc.passed, Pc.phase, currentEvents, leavingEvents]
  next hlast =>
    refine ⟨_, hinv.stampPc hslot ?_ hepoch ?_ ?_ ?_ ?_ ?_⟩
    · simp [hpc, Pc.passed, Pc.phase]
    · simp only [Call.stamp, Pc.stampBound]
      omega
    · intro _ earlier hearlier
      simp only [Pc.stamped] at hearlier
      simp only [Call.stamp]
      omega
    · exact fun hzero => absurd hzero hworker
    · exact fun hgrows => ⟨hphase, hgrows.cancelled hset,
        fun hwhy => absurd rfl hwhy⟩
    · simp [hpc, Pc.passed, Pc.phase, currentEvents, leavingEvents]

theorem stampFinal_ok (hinv : Inv call trace before)
    (hslot : slot < call.participants) {phase : ℕ} {why : Leaving}
    (hpc : before.pc slot = .stampFinal phase why)
    (hstep : stepSlot call before slot = some (after, event)) :
    ∃ pc, StepOk call trace before slot pc after event := by
  have hok := (hinv.slots slot hslot).pcOk
  have hdone := (hinv.slots slot hslot).done_le
  rw [hpc] at hok hdone
  obtain ⟨hworker, hphase, -, hset, hcaptured⟩ := hok
  simp only [Pc.stampBound] at hdone
  obtain ⟨rfl, rfl⟩ := by simpa [stepSlot, hpc] using hstep
  refine ⟨_, hinv.stampPc hslot ?_ hdone le_rfl ?_ ?_ ?_ ?_⟩
  · simp [hpc, Pc.passed, Pc.phase]
  · intro _ earlier hearlier
    simp only [Pc.stamped] at hearlier
    simp only [Call.stamp, Call.finalStamp]
    omega
  · exact fun hzero => absurd hzero hworker
  · exact fun hgrows => ⟨hphase, hgrows.cancelled hset,
      hcaptured.mono hgrows⟩
  · simp [hpc, Pc.passed, Pc.phase, currentEvents]

theorem inBody_ok (hinv : Inv call trace before)
    (hslot : slot < call.participants) {phase : ℕ}
    (hpc : before.pc slot = .inBody phase)
    (hstep : stepSlot call before slot = some (after, event)) :
    ∃ pc, StepOk call trace before slot pc after event := by
  have hok := (hinv.slots slot hslot).pcOk
  rw [hpc] at hok
  obtain ⟨hphase, hready, hjoined⟩ := hok
  simp only [stepSlot, hpc] at hstep
  split at hstep
  next =>
    obtain ⟨rfl, rfl⟩ := by simpa using hstep
    refine ⟨_, hinv.setPc hslot ?_ ?_ ?_ ?_ ?_ ?_ ?_⟩
    · simp [hpc, Pc.passed, Pc.phase]
    · exact ⟨hphase, by simp, fun _ => rfl, hjoined⟩
    · simp [hpc, Pc.stampBound, Pc.phase]
    · simp [hpc, Pc.stamped, Pc.phase]
    · simp [hpc, Pc.publishedPhase]
    · simp [Event.slot, Failure.slot]
    · simp [hpc, Pc.passed, Pc.phase, currentEvents, leavingEvents]
  next =>
    obtain ⟨rfl, rfl⟩ := by simpa using hstep
    refine ⟨_, hinv.setPc hslot ?_ ?_ ?_ ?_ ?_ ?_ ?_⟩
    · simp [hpc, Pc.passed, Pc.phase]
    · exact ⟨hphase, hready, hjoined⟩
    · simp [hpc, Pc.stampBound, Pc.phase]
    · simp [hpc, Pc.stamped, Pc.phase]
    · simp [hpc, Pc.publishedPhase]
    · simp [Event.slot]
    · simp [hpc, Pc.passed, Pc.phase, currentEvents, passedEvents,
        phaseEvents]

theorem capture_ok (hinv : Inv call trace before)
    (hslot : slot < call.participants) {phase : ℕ} {why : Leaving}
    (hpc : before.pc slot = .capture phase why)
    (hstep : stepSlot call before slot = some (after, event)) :
    ∃ pc, StepOk call trace before slot pc after event := by
  have hok := (hinv.slots slot hslot).pcOk
  rw [hpc] at hok
  obtain ⟨hphase, hwhy, hworker, hjoined⟩ := hok
  obtain ⟨rfl, rfl⟩ := by simpa [stepSlot, hpc] using hstep
  have hmoves : Moves slot (.storeCancelled phase why) before
      ({ before with
        firstException := captureFirstException before.firstException
          (why.failure phase slot) }.setPc slot
        (.storeCancelled phase why)) :=
    ⟨moves_capture (by simp [hpc, Pc.passed, Pc.phase]), le_rfl⟩
  refine ⟨_, hinv.storePc hslot hmoves rfl ?_ ?_ ?_ ?_ ?_ (by simp) ?_⟩
  · exact ⟨hphase, hworker, fun hzero => (hjoined hzero).mono hmoves.grows,
      fun _ => captureFirstException_ne_none _ _,
      fun hcancelled => absurd hcancelled hwhy⟩
  · simp [hpc, Pc.stampBound, Pc.phase]
  · simp [hpc, Pc.stamped, Pc.phase]
  · intro hzero
    subst hzero
    have hpublished := hinv.published
    rw [hpc] at hpublished
    simpa [State.setPc, Pc.publishedPhase] using hpublished
  · exact fun _ => rfl
  · simp [hpc, Pc.passed, Pc.phase, currentEvents]

theorem storeCancelled_ok (hinv : Inv call trace before)
    (hslot : slot < call.participants) {phase : ℕ} {why : Leaving}
    (hpc : before.pc slot = .storeCancelled phase why)
    (hstep : stepSlot call before slot = some (after, event)) :
    ∃ pc, StepOk call trace before slot pc after event := by
  have hok := (hinv.slots slot hslot).pcOk
  rw [hpc] at hok
  obtain ⟨hphase, hworker, hjoined, hcaptured, hcause⟩ := hok
  obtain ⟨rfl, rfl⟩ := by simpa [stepSlot, hpc] using hstep
  have hmoves : ∀ pc : Pc, pc.passed = phase →
      Moves slot pc before
        ({ before with cancelled := true }.setPc slot pc) := by
    intro pc hpassed
    refine ⟨moves_cancel ?_, le_rfl⟩
    rw [hpassed, hpc]
    exact le_rfl
  have hpublished : slot = 0 → before.own.currentPhase =
      if why = Leaving.body then phase + 1 else phase := by
    intro hzero
    rw [hinv.published, ← hzero, hpc]
    rfl
  by_cases hzero : slot = 0
  · by_cases hbody : why = Leaving.body
    · have hnext : afterCancel phase slot why = .stampLeaving phase why := by
        simp [afterCancel, hzero, hbody]
      rw [hnext]
      have hgrows := (hmoves (.stampLeaving phase why) rfl).grows
      refine ⟨_, hinv.storePc hslot (hmoves _ rfl) rfl ?_ ?_ ?_ ?_ ?_
        (by simp) ?_⟩
      · exact ⟨hzero, hphase, by simp [hbody], rfl, hcaptured.mono hgrows⟩
      · simp [hpc, Pc.stampBound, Pc.phase]
      · exact fun hworker => absurd hzero hworker
      · simpa [State.setPc, Pc.publishedPhase, hbody] using hpublished
      · exact fun _ => rfl
      · simp [hpc, Pc.passed, Pc.phase, currentEvents]
    · have hnext : afterCancel phase slot why =
          .publishLeaving phase why := by
        simp [afterCancel, hzero, hbody]
      rw [hnext]
      have hgrows := (hmoves (.publishLeaving phase why) rfl).grows
      refine ⟨_, hinv.storePc hslot (hmoves _ rfl) rfl ?_ ?_ ?_ ?_ ?_
        (by simp) ?_⟩
      · exact ⟨hzero, hphase, hbody, rfl, hcaptured.mono hgrows⟩
      · simp [hpc, Pc.stampBound, Pc.phase]
      · exact fun hworker => absurd hzero hworker
      · simpa [State.setPc, Pc.publishedPhase, Pc.phase, hbody] using
          hpublished
      · exact fun _ => rfl
      · simp [hpc, Pc.passed, Pc.phase, currentEvents]
  · have hnext : afterCancel phase slot why = .stampFinal phase why := by
      simp [afterCancel, hzero]
    have hbody := hworker hzero
    rw [hnext]
    have hgrows := (hmoves (.stampFinal phase why) rfl).grows
    refine ⟨_, hinv.storePc hslot (hmoves _ rfl) rfl ?_ ?_ ?_ ?_ ?_
      (by simp) ?_⟩
    · exact ⟨hzero, hphase, by simp [hbody], rfl, hcaptured.mono hgrows⟩
    · simp only [hpc, Pc.stampBound, Pc.phase]
      omega
    · simp [hpc, Pc.stamped, Pc.phase]
    · exact fun hproducer => absurd hproducer hzero
    · exact fun _ => rfl
    · simp [hpc, Pc.passed, Pc.phase, currentEvents]

theorem stampPhase_ok (hinv : Inv call trace before)
    (hslot : slot < call.participants) {phase : ℕ}
    (hpc : before.pc slot = .stampPhase phase)
    (hstep : stepSlot call before slot = some (after, event)) :
    ∃ pc, StepOk call trace before slot pc after event := by
  have hok := (hinv.slots slot hslot).pcOk
  have hdone := (hinv.slots slot hslot).done_le
  have htwo := call.two_le
  rw [hpc] at hok hdone
  obtain ⟨hphase, hready, hjoined⟩ := hok
  simp only [Pc.stampBound, Pc.phase] at hdone
  have hepoch : before.done slot ≤ call.stamp phase := by
    rw [Call.stamp]
    omega
  obtain ⟨rfl, rfl⟩ := by simpa [stepSlot, hpc] using hstep
  split
  next hzero =>
    refine ⟨_, hinv.stampPc hslot ?_ hepoch ?_ ?_ ?_ ?_ ?_⟩
    · simp [hpc, Pc.passed]
    · simp [Call.stamp, Pc.stampBound]
    · exact fun hworker => absurd hzero hworker
    · simp [hpc, Pc.publishedPhase]
    · exact fun hgrows => ⟨hzero, hphase, (hjoined hzero).mono hgrows, le_rfl,
        htwo, joinedUpTo_one⟩
    · simp [hpc, Pc.passed, currentEvents]
  next hworker =>
    refine ⟨_, hinv.stampPc hslot ?_ hepoch ?_ ?_ ?_ ?_ ?_⟩
    · rw [hpc, passed_enterPhase]
      exact le_rfl
    · rw [stampBound_enterPhase hphase, Call.stamp]
    · intro _ earlier hearlier
      rw [stamped_enterPhase hphase] at hearlier
      simp only [Call.stamp]
      omega
    · exact fun hzero => absurd hzero hworker
    · exact fun _ => pcOk_enterPhase hphase
        fun hzero => absurd hzero hworker
    · rw [hpc, passed_enterPhase, currentEvents_enterPhase]
      simp [Pc.passed, currentEvents]

/-- Every step of a slot. -/
theorem stepSlot_ok (hinv : Inv call trace before)
    (hslot : slot < call.participants)
    (hstep : stepSlot call before slot = some (after, event)) :
    ∃ pc, StepOk call trace before slot pc after event := by
  cases hpc : before.pc slot with
  | pollToken phase => exact pollToken_ok hinv hslot hpc hstep
  | loadCancelled phase => exact loadCancelled_ok hinv hslot hpc hstep
  | inPrePhase phase => exact inPrePhase_ok hinv hslot hpc hstep
  | publish phase => exact publish_ok hinv hslot hpc hstep
  | joinPhase phase peer => exact joinPhase_ok hinv hslot hpc hstep
  | publishLeaving phase why => exact publishLeaving_ok hinv hslot hpc hstep
  | stampLeaving phase why => exact stampLeaving_ok hinv hslot hpc hstep
  | joinLeaving phase peer why => exact joinLeaving_ok hinv hslot hpc hstep
  | spin phase => exact spin_ok hinv hslot hpc hstep
  | published phase => exact published_ok hinv hslot hpc hstep
  | stampObserved phase => exact stampObserved_ok hinv hslot hpc hstep
  | stampFinal phase why => exact stampFinal_ok hinv hslot hpc hstep
  | inBody phase => exact inBody_ok hinv hslot hpc hstep
  | capture phase why => exact capture_ok hinv hslot hpc hstep
  | storeCancelled phase why => exact storeCancelled_ok hinv hslot hpc hstep
  | stampPhase phase => exact stampPhase_ok hinv hslot hpc hstep
  | left passed why => simp [stepSlot, hpc] at hstep

end Steps

/-! ## The whole machine -/

section Whole

variable {call : Call} {trace : List Event} {before after : State}
variable {slot : ℕ} {event : Option Event}

theorem disturbed_of_step (hinv : Inv call trace before)
    (hslot : slot < call.participants) (hgrows : Grows before after)
    (hstep : stepSlot call before slot = some (after, event)) :
    after.cancelled = true → after.disturbed := by
  intro hset
  refine hgrows.disturbed ?_
  by_cases hold : before.cancelled = true
  · exact hinv.disturbed hold
  · -- only the store of a catch block or of a stopped slot 0 sets the flag
    have hok := (hinv.slots slot hslot).pcOk
    cases hpc : before.pc slot <;> simp only [stepSlot, hpc] at hstep
    case storeCancelled phase why =>
      rw [hpc] at hok
      obtain ⟨-, -, -, hcaptured, hcause⟩ := hok
      by_cases hwhy : why = .cancelled
      · exact .inl ((hcause hwhy).resolve_right hold)
      · exact .inr (hcaptured hwhy)
    all_goals
      repeat' split at hstep
    all_goals
      first
        | (simp only [reduceCtorEq] at hstep)
        | (simp only [Option.some.injEq, Prod.mk.injEq] at hstep
           obtain ⟨rfl, rfl⟩ := hstep
           exact absurd hset (by simpa [State.setPc, State.stamp] using hold))

/-- The captured failure has been thrown. -/
theorem thrown_of_step (hinv : Inv call trace before)
    (hslot : slot < call.participants)
    (hstep : stepSlot call before slot = some (after, event)) :
    ∀ failure, after.firstException = some failure →
      .threw failure ∈ trace ++ event.toList := by
  intro failure hfirst
  have hold : before.firstException = some failure →
      .threw failure ∈ trace ++ event.toList := fun hsame =>
    List.mem_append_left _ (hinv.thrown failure hsame)
  have hslotInv := hinv.slots slot hslot
  cases hpc : before.pc slot <;> simp only [stepSlot, hpc] at hstep
  case capture phase why =>
    obtain ⟨rfl, rfl⟩ := by simpa using hstep
    have hcaptured : captureFirstException before.firstException
        (why.failure phase slot) = some failure := by
      simpa [State.setPc] using hfirst
    rcases captureFirstException_eq before.firstException
      (why.failure phase slot) with hnew | hkept
    · obtain rfl : why.failure phase slot = failure := by
        simpa [hnew] using hcaptured
      refine List.mem_append_left _ ?_
      have hhistory := hslotInv.history
      have hok := hslotInv.pcOk
      rw [hpc] at hhistory hok
      have hmem : .threw (why.failure phase slot) ∈
          trace.filter (fun event => event.slot = slot) := by
        rw [hhistory]
        cases why with
        | cancelled => exact absurd rfl hok.2.1
        | prePhase => simp [currentEvents, leavingEvents, Leaving.failure]
        | body => simp [currentEvents, leavingEvents, Leaving.failure]
      exact (List.mem_filter.1 hmem).1
    · exact hold (hkept.symm.trans hcaptured)
  all_goals
    repeat' split at hstep
  all_goals
    first
      | (simp only [reduceCtorEq] at hstep)
      | (simp only [Option.some.injEq, Prod.mk.injEq] at hstep
         obtain ⟨rfl, rfl⟩ := hstep
         exact hold (by simpa [State.setPc, State.stamp] using hfirst))

/-- The invariant after a slot has moved. -/
theorem Inv.next {pc : Pc} (hinv : Inv call trace before)
    (hslot : slot < call.participants)
    (hrunning : (before.pc slot).hasLeft = false)
    (hok : StepOk call trace before slot pc after event)
    (hdisturbed : after.cancelled = true → after.disturbed)
    (hthrown : ∀ failure, after.firstException = some failure →
      .threw failure ∈ trace ++ event.toList) :
    Inv call (trace ++ event.toList) after := by
  have hpc : ∀ other, other ≠ slot → after.pc other = before.pc other := by
    intro other hother
    rw [hok.moves.atPc, Function.update_of_ne hother]
  constructor
  · intro other hother
    by_cases hsame : other = slot
    · rw [hsame]
      exact hok.slotInv
    · exact (hinv.slots other hother).mono hok.moves.grows (hpc other hsame)
        (hok.moves.others other hsame) fun emitted hemitted => by
          rw [hok.event emitted hemitted]
          exact Ne.symm hsame
  · by_cases hzero : slot = 0
    · rw [hok.published hzero, hok.moves.atPc, hzero, Function.update_self]
    · rw [hok.kept hzero, hinv.published, hpc 0 (Ne.symm hzero)]
  · exact hdisturbed
  · exact hthrown
  · intro emitted hemitted
    rcases List.mem_append.1 hemitted with hold | hnew
    · exact hinv.bounded emitted hold
    · rwa [hok.event emitted (by simpa using hnew)]
  · intro outcome houtcome
    rw [hok.moves.outcome] at houtcome
    have hall := (hinv.outcome outcome houtcome).1
    rw [before.allLeft_of_running hslot hrunning] at hall
    exact absurd hall (by simp)

theorem running_of_step
    (hstep : stepSlot call before slot = some (after, event)) :
    (before.pc slot).hasLeft = false := by
  cases hpc : before.pc slot with
  | left passed why => simp [stepSlot, hpc] at hstep
  | _ => rfl

/-- Growth of the words outside the slots. -/
theorem Inv.grow (hinv : Inv call trace before)
    (hgrows : Grows before after) (hpc : after.pc = before.pc)
    (hdone : after.done = before.done)
    (hcurrent : after.own.currentPhase = before.own.currentPhase)
    (hcancelled : after.cancelled = before.cancelled)
    (hfirst : after.firstException = before.firstException)
    (houtcome : ∀ outcome, after.outcome = some outcome →
      after.allLeft Pc.hasLeft call.participants = true ∧
        outcome = rethrowIfCaptured after.firstException) :
    Inv call trace after := by
  refine ⟨fun slot hslot => ?_, ?_, ?_, ?_, hinv.bounded, houtcome⟩
  · have hslotInv : SlotInv call (trace ++ (none : Option Event).toList)
        after slot :=
      (hinv.slots slot hslot).mono hgrows (by rw [hpc]) (by rw [hdone])
        (by simp)
    simpa using hslotInv
  · rw [hcurrent, hpc, hinv.published]
  · rw [hcancelled]
    exact fun hset => hgrows.disturbed (hinv.disturbed hset)
  · rw [hfirst]
    exact hinv.thrown

/-- Every step of the machine keeps the invariant. -/
theorem inv_step {action : Action} (hinv : Inv call trace before)
    (hstep : (plex call).step before action = some (after, event)) :
    Inv call (trace ++ event.toList) after := by
  cases action with
  | slot slot =>
      simp only [plex] at hstep
      split at hstep
      next hslot =>
        obtain ⟨pc, hok⟩ := stepSlot_ok hinv hslot hstep
        exact hinv.next hslot (running_of_step hstep) hok
          (disturbed_of_step hinv hslot hok.moves.grows hstep)
          (thrown_of_step hinv hslot hstep)
      next => simp at hstep
  | staleSpin slot =>
      simp only [plex] at hstep
      split at hstep
      next hslot =>
        cases hpc : before.pc slot with
        | spin phase =>
            simp only [stepStaleSpin, hpc] at hstep
            split at hstep
            next hset =>
              obtain ⟨rfl, rfl⟩ := by simpa using hstep
              have hok := spinCancelled_ok hinv hslot hpc hset
              refine hinv.next hslot (by simp [hpc, Pc.hasLeft]) hok
                (fun _ => hok.moves.grows.disturbed (hinv.disturbed hset)) ?_
              simpa [State.setPc] using hinv.thrown
            next => simp at hstep
        | _ => simp [stepStaleSpin, hpc] at hstep
      next => simp at hstep
  | join =>
      simp only [plex] at hstep
      split at hstep
      next hready =>
        obtain ⟨rfl, rfl⟩ := by simpa using hstep
        have hgrows : Grows before { before with
            outcome := some (rethrowIfCaptured before.firstException) } :=
          ⟨⟨fun _ => le_rfl, fun _ => le_rfl, id, id, id⟩, le_rfl⟩
        simp only [Option.toList_none, List.append_nil]
        refine hinv.grow hgrows rfl rfl rfl rfl rfl ?_
        intro outcome houtcome
        exact ⟨hready.2, by simpa using houtcome.symm⟩
      next => simp at hstep
  | requestStop =>
      obtain ⟨rfl, rfl⟩ := by simpa [plex] using hstep
      have hgrows : Grows before { before with stopRequested := true } :=
        ⟨⟨fun _ => le_rfl, fun _ => le_rfl, id, fun _ => rfl, id⟩, le_rfl⟩
      simp only [Option.toList_none, List.append_nil]
      exact hinv.grow hgrows rfl rfl rfl rfl rfl hinv.outcome

theorem inv_start (call : Call) : Inv call [] (start call) := by
  refine ⟨fun slot hslot => ⟨?_, ?_, ?_, ?_⟩, ?_, by simp [start],
    by simp [start], by simp, by simp [start]⟩
  · refine pcOk_enterPhase (Nat.zero_le _) fun _ => ?_
    intro peer _ _ earlier hearlier
    omega
  · simpa [start, stampBound_enterPhase (Nat.zero_le call.nPhases)] using
      call.epochs.done_le slot
  · intro _ earlier hearlier
    simp only [start, stamped_enterPhase (Nat.zero_le call.nPhases)]
      at hearlier
    omega
  · simp [start, passedEvents]
  · simp [start]

/-- The invariant holds after every run. -/
theorem inv_run {state : State}
    (run : Reaches (plex call) (start call) trace state) :
    Inv call trace state :=
  run.invariant (Inv call) (inv_start call) fun hinv _ hstep =>
    inv_step hinv hstep

end Whole

end Citor.Plex
