import Citor.Chain.DynamicInvariant

/-!
# Every step of a dynamic chain call keeps the invariant

One lemma for each kind of step: what it does to the moving slot, to the stage
counters and to the failures.
-/

namespace Citor.DynamicChain

open Citor.Interleaving
open Citor.DoneSlots
open Citor.SlotRunners
open Citor.MachineWord

/-- No stage counter runs over its 64 bits onto a block id. -/
def Call.Fits (call : Call) : Prop :=
  call.blockCount + call.participants ≤ 2 ^ 64

instance (call : Call) : Decidable call.Fits :=
  inferInstanceAs (Decidable (_ ≤ _))

/-! ## A clear boundary -/

section Boundary

variable {call : Call} {trace : List Event} {state : State}
variable {slot stage : ℕ}

/-- Behind its waits a slot that finds the flag clear has everybody past the
stages before. -/
theorem Inv.passed_of_clear (hinv : Inv call trace state)
    (hclear : state.cancelled = false)
    (hstage : stage ≤ (state.pc slot).passed)
    (hwaited : Waited call state stage slot) :
    ∀ peer < call.participants, stage ≤ (state.pc peer).passed := by
  intro peer hpeer
  by_cases hsame : peer = slot
  · rwa [hsame]
  · have hstamp : state.done peer ≤
        call.epochs.epochBase + (state.pc peer).passed := by
      exact (hinv.slots peer hpeer).stamp_le.of_clear hclear
    rcases Nat.eq_zero_or_pos stage with rfl | hpos
    · exact Nat.zero_le _
    · have := hwaited hpos peer hpeer hsame
      omega

/-- A slot in the middle of a stage is not past it. -/
theorem passed_of_holding {pc : Pc} {block : ℕ}
    (hholds : pc = .inBlock stage block ∨ pc = .capture stage block ∨
      pc = .storeFailed stage) : pc.passed = stage := by
  rcases hholds with rfl | rfl | rfl <;> rfl

/-- Once everybody is past a stage of an uncancelled call, the stage is
done. -/
theorem Inv.stagesDone (hinv : Inv call trace state)
    (hclear : state.cancelled = false)
    (hpassed : ∀ peer < call.participants, stage ≤ (state.pc peer).passed) :
    StagesDone call trace stage := by
  intro earlier hearlier block hblock
  obtain ⟨fetched, hstage⟩ := hinv.stages earlier
  have htwo := call.two_le
  have hall : call.blockCount ≤ fetched := by
    refine hstage.exhausted hclear ⟨0, ?_⟩
    rw [mem_pastSlots]
    exact ⟨by omega, hearlier.trans_le (hpassed 0 (by omega))⟩
  rcases hstage.settled block (by omega) with hended |
      ⟨holder, hholder, hholds⟩ | hcancelled
  · exact hended
  · have := hpassed holder hholder
    rw [passed_of_holding hholds] at this
    omega
  · simp [hclear] at hcancelled

end Boundary

/-! ## What a step establishes -/

/-- What a step of `slot` to `pc` establishes. -/
structure StepOk (call : Call) (trace : List Event) (before : State)
    (slot : ℕ) (pc : Pc) (after : State) (event : Option Event) : Prop where
  moves : Moves Pc.passed slot pc before after
  slotInv : SlotInv call (trace ++ event.toList) after slot
  stages : ∀ stage, ∃ fetched,
    StageInv call (trace ++ event.toList) after stage fetched
  failures : FailuresOk call (trace ++ event.toList) after

section Failures

variable {call : Call} {trace : List Event} {before after : State}
variable {slot : ℕ} {pc : Pc} {event : Option Event}

/-- A step that neither throws nor captures. -/
theorem FailuresOk.quiet (hok : FailuresOk call trace before)
    (hmoves : Moves Pc.passed slot pc before after)
    (hfirst : after.firstException = before.firstException)
    (hdisturbed : after.cancelled = true → after.disturbed)
    (hpc : ∀ stage block, before.pc slot ≠ .capture stage block)
    (hevent : ∀ emitted ∈ event, emitted.failure = none ∧
      ∀ failure, emitted ≠ .blockThrow failure) :
    FailuresOk call (trace ++ event.toList) after where
  captured := by
    rw [hfirst, hok.captured, List.filterMap_append]
    cases event with
    | none => simp
    | some emitted => simp [(hevent emitted rfl).1]
  caught failure hcaptured := by
    rcases List.mem_append.1 hcaptured with hold | hnew
    · exact List.mem_append_left _ (hok.caught failure hold)
    · have hfail := (hevent (.captured failure) (by simpa using hnew)).1
      simp [Event.failure] at hfail
  threw failure hthrew := by
    rcases List.mem_append.1 hthrew with hold | hnew
    · refine (hok.threw failure hold).imp (List.mem_append_left _) ?_
      rintro ⟨hslot, hat⟩
      refine ⟨hslot, ?_⟩
      have hne : failure.slot ≠ slot := by
        rintro rfl
        exact hpc _ _ hat
      rwa [hmoves.atPc, Function.update_of_ne hne]
    · exact absurd rfl
        ((hevent (.blockThrow failure) (by simpa using hnew)).2 failure)
  disturbed := hdisturbed

theorem FailuresOk.blockThrow {stage block : ℕ}
    (hok : FailuresOk call trace before) (hslot : slot < call.participants)
    (hpc : ∀ stage block, before.pc slot ≠ .capture stage block) :
    FailuresOk call (trace ++ [.blockThrow ⟨stage, slot, block⟩])
      (before.setPc slot (.capture stage block)) where
  captured := by
    simpa [State.setPc, Event.failure] using hok.captured
  caught failure hcaptured := by
    have hold : .captured failure ∈ trace := by simpa using hcaptured
    exact List.mem_append_left _ (hok.caught failure hold)
  threw failure hthrew := by
    rcases List.mem_append.1 hthrew with hold | hnew
    · refine (hok.threw failure hold).imp (List.mem_append_left _) ?_
      rintro ⟨hholder, hat⟩
      refine ⟨hholder, ?_⟩
      have hne : failure.slot ≠ slot := by
        rintro rfl
        exact hpc _ _ hat
      simpa [State.setPc, hne] using hat
    · obtain rfl : failure = ⟨stage, slot, block⟩ := by simpa using hnew
      exact .inr ⟨hslot, by simp [State.setPc]⟩
  disturbed := hok.disturbed

theorem FailuresOk.capture {stage block : ℕ}
    (hok : FailuresOk call trace before)
    (hpc : before.pc slot = .capture stage block)
    (hthrew : .blockThrow ⟨stage, slot, block⟩ ∈ trace) :
    FailuresOk call (trace ++ [.captured ⟨stage, slot, block⟩])
      ({ before with
        firstException := captureFirstException before.firstException
          ⟨stage, slot, block⟩ }.setPc slot (.storeFailed stage)) where
  captured := by
    simp only [State.setPc, hok.captured]
    exact captureFirstException_head? Event.failure trace rfl
  caught failure hcaptured := by
    rcases List.mem_append.1 hcaptured with hold | hnew
    · exact List.mem_append_left _ (hok.caught failure hold)
    · obtain rfl : failure = ⟨stage, slot, block⟩ := by simpa using hnew
      exact List.mem_append_left _ hthrew
  threw failure hthrown := by
    have hold : .blockThrow failure ∈ trace := by simpa using hthrown
    rcases hok.threw failure hold with hcaptured | ⟨hslot, hat⟩
    · exact .inl (List.mem_append_left _ hcaptured)
    · by_cases hsame : failure.slot = slot
      · left
        rw [hsame, hpc] at hat
        obtain ⟨hstage, hblock⟩ : stage = failure.stage ∧
            block = failure.block := by simpa using hat
        subst hsame hstage hblock
        simp
      · refine .inr ⟨hslot, ?_⟩
        simpa [State.setPc, hsame] using hat
  disturbed _ := .inr (captureFirstException_ne_none _ _)

end Failures

/-! ## One lemma for each program counter -/

section Steps

variable {call : Call} {trace : List Event} {before after : State}
variable {slot : ℕ} {event : Option Event}

/-- A step that moves the program counter and nothing else. -/
theorem Inv.setPc (hinv : Inv call trace before)
    (hslot : slot < call.participants) {pc : Pc}
    (hstays : (before.pc slot).hasLeft = false)
    (hstage : pc.stage = (before.pc slot).stage)
    (hpassed : (before.pc slot).passed ≤ pc.passed)
    (hpast : before.cancelled = true ∨
      pc.passed = (before.pc slot).passed)
    (hholds : ∀ stage block, ¬ (before.pc slot = .inBlock stage block ∨
        before.pc slot = .capture stage block ∨
        before.pc slot = .storeFailed stage))
    (hok : PcOk call trace before slot pc) :
    StepOk call trace before slot pc (before.setPc slot pc) none := by
  have hmoves : Moves Pc.passed slot pc before (before.setPc slot pc) :=
    moves_setPc hpassed
  refine ⟨hmoves, (hinv.slots slot hslot).quiet hmoves rfl hstays hstage
    (hok.mono hmoves.grows rfl), fun stage => ?_, ?_⟩
  · obtain ⟨fetched, hstageInv⟩ := hinv.stages stage
    exact ⟨fetched, hstageInv.keep hmoves rfl (by simp)
      (fun block hhold => absurd hhold (hholds stage block))
      (hpast.imp_right fun hsame hlow => by omega)⟩
  · exact hinv.failures.quiet hmoves rfl hinv.failures.disturbed
      (fun stage block hat => hholds stage block (.inr (.inl hat))) (by simp)

theorem scanPeers_ok (hinv : Inv call trace before)
    (hslot : slot < call.participants) {stage step : ℕ}
    (hpc : before.pc slot = .scanPeers stage step)
    (hstep : stepSlot call before slot = some (after, event)) :
    ∃ pc, StepOk call trace before slot pc after event := by
  have hok := (hinv.slots slot hslot).pcOk
  rw [hpc] at hok
  obtain ⟨hstage, hpos, hone, hstepLt, hearlier⟩ := hok
  simp only [stepSlot, hpc] at hstep
  split at hstep
  next => simp at hstep
  next hstamped =>
    -- the peer just read joins the ones read before
    have hread : ∀ earlier, 1 ≤ earlier → earlier < step + 1 →
        call.epochs.epochBase + stage ≤
          before.done (scanPeer call.participants slot earlier) := by
      intro earlier hlow hless
      rcases Nat.lt_succ_iff_lt_or_eq.1 hless with hold | rfl
      · exact hearlier earlier hlow hold
      · omega
    split at hstep
    next hmore =>
      obtain ⟨rfl, rfl⟩ := by simpa using hstep
      refine ⟨_, hinv.setPc hslot ?_ ?_ ?_ (.inr ?_) ?_ ?_⟩
      · simp [hpc, Pc.hasLeft]
      · simp [hpc, Pc.stage]
      · simp [hpc, Pc.passed, Pc.stage]
      · simp [hpc, Pc.passed, Pc.stage]
      · simp [hpc]
      · exact ⟨hstage, hpos, by omega, hmore, hread⟩
    next hlast =>
      obtain ⟨rfl, rfl⟩ := by simpa using hstep
      refine ⟨_, hinv.setPc hslot ?_ ?_ ?_ (.inr ?_) ?_ ⟨hstage, ?_⟩⟩
      · simp [hpc, Pc.hasLeft]
      · simp [hpc, Pc.stage]
      · simp [hpc, Pc.passed, Pc.stage]
      · simp [hpc, Pc.passed, Pc.stage]
      · simp [hpc]
      · intro _ peer hpeer hne
        obtain ⟨place, hlow, hless, rfl⟩ := exists_scanPeer_eq hslot hpeer hne
        exact hread place hlow (by omega)

theorem loadCancelled_ok (hinv : Inv call trace before)
    (hslot : slot < call.participants) {stage : ℕ}
    (hpc : before.pc slot = .loadCancelled stage)
    (hstep : stepSlot call before slot = some (after, event)) :
    ∃ pc, StepOk call trace before slot pc after event := by
  have hok := (hinv.slots slot hslot).pcOk
  rw [hpc] at hok
  obtain ⟨hstage, hwaited⟩ := hok
  simp only [stepSlot, hpc] at hstep
  split at hstep
  next hcancelled =>
    obtain ⟨rfl, rfl⟩ := by simpa using hstep
    refine ⟨_, hinv.setPc hslot ?_ ?_ ?_ (.inr ?_) ?_
      ⟨hstage, .inl hcancelled⟩⟩
    · simp [hpc, Pc.hasLeft]
    · simp [hpc, Pc.stage]
    · simp [hpc, Pc.passed, Pc.stage]
    · simp [hpc, Pc.passed, Pc.stage]
    · simp [hpc]
  next hclear =>
    obtain ⟨rfl, rfl⟩ := by simpa using hstep
    have hpassed : ∀ peer < call.participants,
        stage ≤ (before.pc peer).passed :=
      hinv.passed_of_clear (by simpa using hclear)
        (by simp [hpc, Pc.passed, Pc.stage]) hwaited
    refine ⟨_, hinv.setPc hslot ?_ ?_ ?_ (.inr ?_) ?_
      ⟨hstage, hinv.stagesDone (by simpa using hclear) hpassed⟩⟩
    · simp [hpc, Pc.hasLeft]
    · simp [hpc, Pc.stage]
    · simp [hpc, Pc.passed, Pc.stage]
    · simp [hpc, Pc.passed, Pc.stage]
    · simp [hpc]

theorem pollToken_ok (hinv : Inv call trace before)
    (hslot : slot < call.participants) {stage : ℕ}
    (hpc : before.pc slot = .pollToken stage)
    (hstep : stepSlot call before slot = some (after, event)) :
    ∃ pc, StepOk call trace before slot pc after event := by
  have hok := (hinv.slots slot hslot).pcOk
  rw [hpc] at hok
  obtain ⟨hstage, hdone⟩ := hok
  simp only [stepSlot, hpc] at hstep
  split at hstep
  next hstop =>
    obtain ⟨rfl, rfl⟩ := by simpa using hstep
    refine ⟨_, hinv.setPc hslot ?_ ?_ ?_ (.inr ?_) ?_ ⟨hstage, .inr hstop⟩⟩
    · simp [hpc, Pc.hasLeft]
    · simp [hpc, Pc.stage]
    · simp [hpc, Pc.passed, Pc.stage]
    · simp [hpc, Pc.passed, Pc.stage]
    · simp [hpc]
  next =>
    obtain ⟨rfl, rfl⟩ := by simpa using hstep
    refine ⟨_, hinv.setPc hslot ?_ ?_ ?_ (.inr ?_) ?_ ⟨hstage, hdone⟩⟩
    · simp [hpc, Pc.hasLeft]
    · simp [hpc, Pc.stage]
    · simp [hpc, Pc.passed, Pc.stage]
    · simp [hpc, Pc.passed, Pc.stage]
    · simp [hpc]

theorem repollToken_ok (hinv : Inv call trace before)
    (hslot : slot < call.participants) {stage : ℕ}
    (hpc : before.pc slot = .repollToken stage)
    (hstep : stepSlot call before slot = some (after, event)) :
    ∃ pc, StepOk call trace before slot pc after event := by
  have hok := (hinv.slots slot hslot).pcOk
  rw [hpc] at hok
  obtain ⟨hstage, hcause⟩ := hok
  simp only [stepSlot, hpc] at hstep
  split at hstep
  next hstop =>
    obtain ⟨rfl, rfl⟩ := by simpa using hstep
    refine ⟨_, hinv.setPc hslot ?_ ?_ ?_ (.inr ?_) ?_ ⟨hstage, hstop⟩⟩
    · simp [hpc, Pc.hasLeft]
    · simp [hpc, Pc.stage]
    · simp [hpc, Pc.passed, Pc.stage]
    · simp [hpc, Pc.passed, Pc.stage]
    · simp [hpc]
  next hquiet =>
    obtain ⟨rfl, rfl⟩ := by simpa using hstep
    refine ⟨_, hinv.setPc hslot ?_ ?_ ?_ (.inr ?_) ?_
      ⟨hstage, by simpa [hquiet] using hcause⟩⟩
    · simp [hpc, Pc.hasLeft]
    · simp [hpc, Pc.stage]
    · simp [hpc, Pc.passed, Pc.stage]
    · simp [hpc, Pc.passed, Pc.stage]
    · simp [hpc]

theorem loopHead_ok (hinv : Inv call trace before)
    (hslot : slot < call.participants) {stage : ℕ}
    (hpc : before.pc slot = .loopHead stage)
    (hstep : stepSlot call before slot = some (after, event)) :
    ∃ pc, StepOk call trace before slot pc after event := by
  have hok := (hinv.slots slot hslot).pcOk
  rw [hpc] at hok
  obtain ⟨hstage, hdone⟩ := hok
  simp only [stepSlot, hpc] at hstep
  split at hstep
  next hcancelled =>
    obtain ⟨rfl, rfl⟩ := by simpa using hstep
    refine ⟨_, hinv.setPc hslot ?_ ?_ ?_ (.inl hcancelled) ?_ hstage⟩
    · simp [hpc, Pc.hasLeft]
    · simp [hpc, Pc.stage]
    · simp [hpc, Pc.passed, Pc.stage]
    · simp [hpc]
  next =>
    obtain ⟨rfl, rfl⟩ := by simpa using hstep
    refine ⟨_, hinv.setPc hslot ?_ ?_ ?_ (.inr ?_) ?_ ⟨hstage, hdone⟩⟩
    · simp [hpc, Pc.hasLeft]
    · simp [hpc, Pc.stage]
    · simp [hpc, Pc.passed, Pc.stage]
    · simp [hpc, Pc.passed, Pc.stage]
    · simp [hpc]

/-- A step that raises `cancelled`. -/
theorem Inv.cancelPc (hinv : Inv call trace before)
    (hslot : slot < call.participants) {stage : ℕ}
    (hstays : (before.pc slot).hasLeft = false)
    (hat : (before.pc slot).stage = stage)
    (hpassed : (before.pc slot).passed = stage)
    (hcapture : ∀ stage block, before.pc slot ≠ .capture stage block)
    (hstage : stage < call.nStages) (hdisturbed : before.disturbed) :
    StepOk call trace before slot (.stampFinal stage)
      ({ before with cancelled := true }.setPc slot (.stampFinal stage))
      none := by
  have hmoves : Moves Pc.passed slot (.stampFinal stage) before
      ({ before with cancelled := true }.setPc slot
        (.stampFinal stage)) :=
    moves_cancel hpassed.le
  refine ⟨hmoves, (hinv.slots slot hslot).quiet hmoves rfl hstays hat.symm
    ⟨hstage, rfl⟩, fun other => ?_, ?_⟩
  · obtain ⟨fetched, hstageInv⟩ := hinv.stages other
    exact ⟨fetched, hstageInv.keep hmoves rfl (by simp)
      (fun block _ => .inr (.inr rfl)) (.inl rfl)⟩
  · exact hinv.failures.quiet hmoves rfl (fun _ => hdisturbed) hcapture
      (by simp)

theorem storeCancelled_ok (hinv : Inv call trace before)
    (hslot : slot < call.participants) {stage : ℕ}
    (hpc : before.pc slot = .storeCancelled stage)
    (hstep : stepSlot call before slot = some (after, event)) :
    ∃ pc, StepOk call trace before slot pc after event := by
  have hok := (hinv.slots slot hslot).pcOk
  rw [hpc] at hok
  obtain ⟨rfl, rfl⟩ := by simpa [stepSlot, hpc] using hstep
  refine ⟨_, hinv.cancelPc hslot ?_ ?_ ?_ ?_ hok.1 (.inl hok.2)⟩
  · simp [hpc, Pc.hasLeft]
  · simp [hpc, Pc.stage]
  · simp [hpc, Pc.passed, Pc.stage]
  · simp [hpc]

theorem storeFailed_ok (hinv : Inv call trace before)
    (hslot : slot < call.participants) {stage : ℕ}
    (hpc : before.pc slot = .storeFailed stage)
    (hstep : stepSlot call before slot = some (after, event)) :
    ∃ pc, StepOk call trace before slot pc after event := by
  have hok := (hinv.slots slot hslot).pcOk
  rw [hpc] at hok
  obtain ⟨rfl, rfl⟩ := by simpa [stepSlot, hpc] using hstep
  refine ⟨_, hinv.cancelPc hslot ?_ ?_ ?_ ?_ hok.1 (.inr hok.2)⟩
  · simp [hpc, Pc.hasLeft]
  · simp [hpc, Pc.stage]
  · simp [hpc, Pc.passed, Pc.stage]
  · simp [hpc]

/-- A step that stamps. -/
theorem Inv.stampPc (hinv : Inv call trace before)
    {pc : Pc} {epoch : ℕ}
    (hpassed : pc.passed = (before.pc slot).passed)
    (hepoch : before.done slot ≤ epoch)
    (hholds : ∀ stage block, ¬ (before.pc slot = .inBlock stage block ∨
        before.pc slot = .capture stage block ∨
        before.pc slot = .storeFailed stage))
    (hslotInv : SlotInv call trace
      ((before.stamp slot epoch).setPc slot pc) slot) :
    StepOk call trace before slot pc
      ((before.stamp slot epoch).setPc slot pc) none := by
  have hmoves : Moves Pc.passed slot pc before
      ((before.stamp slot epoch).setPc slot pc) :=
    moves_stamp hpassed.ge hepoch
  refine ⟨hmoves, by simpa using hslotInv, fun stage => ?_, ?_⟩
  · obtain ⟨fetched, hstageInv⟩ := hinv.stages stage
    exact ⟨fetched, hstageInv.keep hmoves rfl (by simp)
      (fun block hhold => absurd hhold (hholds stage block))
      (.inr (hpassed ▸ id))⟩
  · exact hinv.failures.quiet hmoves rfl hinv.failures.disturbed
      (fun stage block hat => hholds stage block (.inr (.inl hat))) (by simp)

theorem stampStage_ok (hinv : Inv call trace before)
    (hslot : slot < call.participants) {stage : ℕ}
    (hpc : before.pc slot = .stampStage stage)
    (hstep : stepSlot call before slot = some (after, event)) :
    ∃ pc, StepOk call trace before slot pc after event := by
  have hslotInv := hinv.slots slot hslot
  have hok := hslotInv.pcOk
  rw [hpc] at hok
  have hdone := hslotInv.stamp_le.of_running (by simp [hpc, Pc.hasLeft])
  have hpassed : (before.pc slot).passed = stage + 1 := by
    simp [hpc, Pc.passed]
  rw [hpassed] at hdone
  obtain ⟨rfl, rfl⟩ := by simpa [stepSlot, hpc] using hstep
  refine ⟨_, hinv.stampPc (by simp [hpassed]) hdone (by simp [hpc])
    ⟨?_, .inl ?_, ?_⟩⟩
  · simpa [State.setPc] using pcOk_enterStage hok
  · simp [State.setPc, State.stamp]
  · intro earlier hearlier
    simp only [State.setPc, State.stamp, Function.update_self,
      stage_enterStage] at hearlier ⊢
    omega

theorem stampFinal_ok (hinv : Inv call trace before)
    (hslot : slot < call.participants) {stage : ℕ}
    (hpc : before.pc slot = .stampFinal stage)
    (hstep : stepSlot call before slot = some (after, event)) :
    ∃ pc, StepOk call trace before slot pc after event := by
  have hslotInv := hinv.slots slot hslot
  have hok := hslotInv.pcOk
  rw [hpc] at hok
  obtain ⟨hstage, hcancelled⟩ := hok
  have hdone := hslotInv.stamp_le.of_running (by simp [hpc, Pc.hasLeft])
  have hpassed : (before.pc slot).passed = stage := by
    simp [hpc, Pc.passed, Pc.stage]
  rw [hpassed] at hdone
  obtain ⟨rfl, rfl⟩ := by simpa [stepSlot, hpc] using hstep
  refine ⟨_, hinv.stampPc hpassed.symm
    (by omega) (by simp [hpc]) ⟨?_, .inr ?_, ?_⟩⟩
  · simp [State.setPc, State.stamp, PcOk, hstage, hcancelled]
  · simp [State.setPc, State.stamp, hcancelled, Pc.hasLeft]
  · intro earlier hearlier
    simp only [State.setPc, State.stamp, Function.update_self,
      Pc.stage] at hearlier ⊢
    omega

/-- A claiming slot finds the counter below its maximum. -/
theorem StageInv.fetched_lt (hfits : call.Fits) {stage fetched : ℕ}
    (hinv : StageInv call trace before stage fetched)
    (hslot : slot < call.participants)
    (hpassed : (before.pc slot).passed ≤ stage) : fetched < 2 ^ 64 := by
  have hcard := card_pastSlots_lt hslot hpassed
  have hle := hinv.fetched_le
  unfold Call.Fits at hfits
  omega

theorem claim_ok (hfits : call.Fits) (hinv : Inv call trace before)
    (hslot : slot < call.participants) {stage : ℕ}
    (hpc : before.pc slot = .claim stage)
    (hstep : stepSlot call before slot = some (after, event)) :
    ∃ pc, StepOk call trace before slot pc after event := by
  have hslotInv := hinv.slots slot hslot
  have hok := hslotInv.pcOk
  rw [hpc] at hok
  obtain ⟨hstage, hdone⟩ := hok
  have hpassed : (before.pc slot).passed = stage := by
    simp [hpc, Pc.passed, Pc.stage]
  have hholds : ∀ other block, ¬ (before.pc slot = .inBlock other block ∨
      before.pc slot = .capture other block ∨
      before.pc slot = .storeFailed other) := by
    simp [hpc]
  obtain ⟨fetched, hstageInv⟩ := hinv.stages stage
  have hvalue : before.own.counter stage = fetched := by
    rw [hstageInv.counter,
      word_of_lt (hstageInv.fetched_lt hfits hslot hpassed.le)]
  simp only [stepSlot, hpc] at hstep
  split at hstep
  next hall =>
    obtain ⟨rfl, rfl⟩ := by simpa using hstep
    have hmoves : Moves Pc.passed slot (.stampStage stage) before
        ((before.fetchAdd stage).setPc slot (.stampStage stage)) :=
      ⟨rfl, hpassed.le.trans (Nat.le_succ stage), fun _ _ => rfl, le_rfl, id,
        rfl, id, rfl⟩
    refine ⟨_, hmoves, hslotInv.quiet hmoves rfl ?_ ?_ hstage,
      fun other => ?_, ?_⟩
    · simp [hpc, Pc.hasLeft]
    · simp [hpc, Pc.stage]
    · by_cases hother : other = stage
      · subst hother
        refine ⟨fetched + 1, ?_⟩
        simpa using hstageInv.overshoot hmoves hslot
          (by simp [State.setPc, State.fetchAdd]) hpassed (Nat.lt_succ_self _)
          (by omega) (hholds other)
      · obtain ⟨count, hcount⟩ := hinv.stages other
        exact ⟨count, hcount.keep hmoves
          (by simp [State.setPc, State.fetchAdd, hother]) (by simp)
          (fun block hhold => absurd hhold (hholds other block))
          (.inr fun hlow => by simp only [Pc.passed] at hlow; omega)⟩
    · exact hinv.failures.quiet hmoves rfl hinv.failures.disturbed
        (by simp [hpc]) (by simp)
  next hmore =>
    rw [hvalue] at hmore hstep
    obtain ⟨rfl, rfl⟩ := by simpa using hstep
    have hmoves : Moves Pc.passed slot (.inBlock stage fetched) before
        ((before.fetchAdd stage).setPc slot (.inBlock stage fetched)) :=
      ⟨rfl, hpassed.le, fun _ _ => rfl, le_rfl, id, rfl, id, rfl⟩
    refine ⟨_, hmoves, hslotInv.quiet hmoves rfl ?_ ?_
      ⟨hstage, hdone.mono, by omega⟩, fun other => ?_, ?_⟩
    · simp [hpc, Pc.hasLeft]
    · simp [hpc, Pc.stage]
    · by_cases hother : other = stage
      · subst hother
        exact ⟨fetched + 1, hstageInv.claimed hmoves hslot
          (by simp [State.setPc, State.fetchAdd]) hpassed (by omega) rfl
          (hholds other)⟩
      · obtain ⟨count, hcount⟩ := hinv.stages other
        exact ⟨count, hcount.keep hmoves
          (by simp [State.setPc, State.fetchAdd, hother])
          (by simp [Event.starts, Ne.symm hother])
          (fun block hhold => absurd hhold (hholds other block))
          (.inr fun hlow => hpassed.symm ▸ hlow)⟩
    · exact hinv.failures.quiet hmoves rfl hinv.failures.disturbed
        (by simp [hpc]) (by simp [Event.failure])

theorem inBlock_ok (hinv : Inv call trace before)
    (hslot : slot < call.participants) {stage block : ℕ}
    (hpc : before.pc slot = .inBlock stage block)
    (hstep : stepSlot call before slot = some (after, event)) :
    ∃ pc, StepOk call trace before slot pc after event := by
  have hslotInv := hinv.slots slot hslot
  have hok := hslotInv.pcOk
  rw [hpc] at hok
  obtain ⟨hstage, hdone, hblock⟩ := hok
  have hpassed : (before.pc slot).passed = stage := by
    simp [hpc, Pc.passed, Pc.stage]
  simp only [stepSlot, hpc] at hstep
  split at hstep
  next =>
    obtain ⟨rfl, rfl⟩ := by simpa using hstep
    have hmoves : Moves Pc.passed slot (.capture stage block) before
        (before.setPc slot (.capture stage block)) := moves_setPc hpassed.le
    refine ⟨_, hmoves, hslotInv.quiet hmoves rfl ?_ ?_
      ⟨hstage, by simp⟩, fun other => ?_, ?_⟩
    · simp [hpc, Pc.hasLeft]
    · simp [hpc, Pc.stage]
    · obtain ⟨count, hcount⟩ := hinv.stages other
      refine ⟨count, hcount.keep hmoves rfl (by simp [Event.starts]) ?_
        (.inr fun hlow => hpassed.symm ▸ hlow)⟩
      intro held hheld
      obtain ⟨rfl, rfl⟩ : stage = other ∧ block = held := by
        simpa [hpc] using hheld
      exact .inr (.inl ⟨slot, hslot, .inr (.inl (by simp [State.setPc]))⟩)
    · exact hinv.failures.blockThrow hslot (by simp [hpc])
  next =>
    obtain ⟨rfl, rfl⟩ := by simpa using hstep
    have hmoves : Moves Pc.passed slot (.loopHead stage) before
        (before.setPc slot (.loopHead stage)) := moves_setPc hpassed.le
    refine ⟨_, hmoves, hslotInv.quiet hmoves rfl ?_ ?_
      ⟨hstage, hdone.mono⟩, fun other => ?_, ?_⟩
    · simp [hpc, Pc.hasLeft]
    · simp [hpc, Pc.stage]
    · obtain ⟨count, hcount⟩ := hinv.stages other
      refine ⟨count, hcount.keep hmoves rfl (by simp [Event.starts]) ?_
        (.inr fun hlow => hpassed.symm ▸ hlow)⟩
      intro held hheld
      obtain ⟨rfl, rfl⟩ : stage = other ∧ block = held := by
        simpa [hpc] using hheld
      exact .inl ⟨slot, hslot, by simp⟩
    · exact hinv.failures.quiet hmoves rfl hinv.failures.disturbed
        (by simp [hpc]) (by simp [Event.failure])

theorem capture_ok (hinv : Inv call trace before)
    (hslot : slot < call.participants) {stage block : ℕ}
    (hpc : before.pc slot = .capture stage block)
    (hstep : stepSlot call before slot = some (after, event)) :
    ∃ pc, StepOk call trace before slot pc after event := by
  have hslotInv := hinv.slots slot hslot
  have hok := hslotInv.pcOk
  rw [hpc] at hok
  obtain ⟨hstage, hthrew⟩ := hok
  have hpassed : (before.pc slot).passed = stage := by
    simp [hpc, Pc.passed, Pc.stage]
  obtain ⟨rfl, rfl⟩ := by simpa [stepSlot, hpc] using hstep
  have hfirst := captureFirstException_ne_none before.firstException
    (⟨stage, slot, block⟩ : Failure)
  have hmoves : Moves Pc.passed slot (.storeFailed stage) before
      ({ before with
        firstException := captureFirstException before.firstException
          ⟨stage, slot, block⟩ }.setPc slot (.storeFailed stage)) :=
    moves_capture hpassed.le
  refine ⟨_, hmoves, hslotInv.quiet hmoves rfl ?_ ?_ ⟨hstage, hfirst⟩,
    fun other => ?_, hinv.failures.capture hpc hthrew⟩
  · simp [hpc, Pc.hasLeft]
  · simp [hpc, Pc.stage]
  · obtain ⟨count, hcount⟩ := hinv.stages other
    refine ⟨count, hcount.keep hmoves rfl (by simp [Event.starts]) ?_
      (.inr fun hlow => hpassed.symm ▸ hlow)⟩
    intro held hheld
    obtain ⟨rfl, rfl⟩ : stage = other ∧ block = held := by
      simpa [hpc] using hheld
    exact .inr (.inl ⟨slot, hslot, .inr (.inr (by simp [State.setPc]))⟩)

/-- Every step of a slot keeps what the invariant says about it. -/
theorem stepSlot_ok (hfits : call.Fits) (hinv : Inv call trace before)
    (hslot : slot < call.participants)
    (hstep : stepSlot call before slot = some (after, event)) :
    ∃ pc, StepOk call trace before slot pc after event := by
  cases hpc : before.pc slot with
  | scanPeers stage step => exact scanPeers_ok hinv hslot hpc hstep
  | loadCancelled stage => exact loadCancelled_ok hinv hslot hpc hstep
  | pollToken stage => exact pollToken_ok hinv hslot hpc hstep
  | repollToken stage => exact repollToken_ok hinv hslot hpc hstep
  | storeCancelled stage => exact storeCancelled_ok hinv hslot hpc hstep
  | stampFinal stage => exact stampFinal_ok hinv hslot hpc hstep
  | loopHead stage => exact loopHead_ok hinv hslot hpc hstep
  | claim stage => exact claim_ok hfits hinv hslot hpc hstep
  | inBlock stage block => exact inBlock_ok hinv hslot hpc hstep
  | capture stage block => exact capture_ok hinv hslot hpc hstep
  | storeFailed stage => exact storeFailed_ok hinv hslot hpc hstep
  | stampStage stage => exact stampStage_ok hinv hslot hpc hstep
  | left passed => simp [stepSlot, hpc] at hstep

end Steps

/-! ## Runs -/

section Runs

variable {call : Call} {trace : List Event} {before after state : State}

theorem inv_start (call : Call) : Inv call [] (start call) where
  slots slot _ := by
    have hdone := call.epochs.done_le slot
    refine ⟨pcOk_enterStage (Nat.zero_le _), .inl ?_, ?_⟩
    · simpa [start] using hdone
    · simp [start]
  stages stage := by
    refine ⟨0, by simp [start, word], Nat.zero_le _, by simp [startedBlocks],
      by simp, ?_⟩
    rintro - ⟨past, hpast⟩
    rw [mem_pastSlots] at hpast
    simp [start] at hpast
  failures := ⟨by simp [start], by simp, by simp, by simp [start]⟩
  outcome := by simp [start]

/-- A step of one slot leaves the others' part of the invariant alone. -/
theorem Inv.slots_of_stepOk {slot : ℕ} {pc : Pc} {event : Option Event}
    (hinv : Inv call trace before)
    (hok : StepOk call trace before slot pc after event) :
    ∀ other < call.participants,
      SlotInv call (trace ++ event.toList) after other := by
  intro other hother
  by_cases hsame : other = slot
  · rw [hsame]
    exact hok.slotInv
  · exact (hinv.slots other hother).mono hok.moves.grows
      (by rw [hok.moves.atPc, Function.update_of_ne hsame])
      (hok.moves.others other hsame)

/-- Every step of the machine keeps the invariant. -/
theorem inv_step (hfits : call.Fits) (hinv : Inv call trace before)
    {action : Action} {event : Option Event}
    (hstep : (dynamicChain call).step before action = some (after, event)) :
    Inv call (trace ++ event.toList) after := by
  cases action with
  | slot slot =>
      simp only [dynamicChain] at hstep
      split at hstep
      next hslot =>
        obtain ⟨pc, hok⟩ := stepSlot_ok hfits hinv hslot hstep
        refine ⟨hinv.slots_of_stepOk hok, hok.stages, hok.failures, ?_⟩
        intro outcome houtcome
        rw [hok.moves.outcome] at houtcome
        -- a slot that can still step has not left
        have hall := (hinv.outcome outcome houtcome).1
        have hleft := before.allLeft_iff.1 hall slot hslot
        cases hpc : before.pc slot with
        | left passed => simp [stepSlot, hpc] at hstep
        | _ => simp [hpc, Pc.hasLeft] at hleft
      next => simp at hstep
  | join =>
      simp only [dynamicChain] at hstep
      split at hstep
      next hready =>
        obtain ⟨rfl, rfl⟩ := by simpa using hstep
        refine ⟨fun slot hslot => ?_, fun stage => ?_, ?_, ?_⟩
        · obtain ⟨hpcOk, hstamp, hle⟩ := hinv.slots slot hslot
          refine ⟨?_, hstamp, hle⟩
          have hgrows : Grows Pc.passed before { before with
              outcome := some (rethrowIfCaptured before.firstException) } :=
            ⟨fun _ => le_rfl, fun _ => le_rfl, id, id, id⟩
          exact hpcOk.mono hgrows rfl
        · obtain ⟨fetched, hstage⟩ := hinv.stages stage
          exact ⟨fetched, by simpa using ⟨hstage.counter, hstage.fetched_le,
            hstage.started, hstage.settled, hstage.exhausted⟩⟩
        · obtain ⟨hcaptured, hcaught, hthrew, hdisturbed⟩ := hinv.failures
          simpa using ⟨hcaptured, hcaught, hthrew, hdisturbed⟩
        · intro outcome houtcome
          exact ⟨hready.2, by simpa using houtcome.symm⟩
      next => simp at hstep
  | requestStop =>
      obtain ⟨rfl, rfl⟩ := by simpa [dynamicChain] using hstep
      have hgrows : Grows Pc.passed before
          { before with stopRequested := true } :=
        ⟨fun _ => le_rfl, fun _ => le_rfl, id, fun _ => rfl, id⟩
      refine ⟨fun slot hslot => ?_, fun stage => ?_, ?_, hinv.outcome⟩
      · exact (hinv.slots slot hslot).mono hgrows rfl rfl
      · obtain ⟨fetched, hstage⟩ := hinv.stages stage
        exact ⟨fetched, by simpa using ⟨hstage.counter, hstage.fetched_le,
          hstage.started, hstage.settled, hstage.exhausted⟩⟩
      · obtain ⟨hcaptured, hcaught, hthrew, hdisturbed⟩ := hinv.failures
        simpa using ⟨hcaptured, hcaught, hthrew, fun hset =>
          (hdisturbed hset).imp (fun _ => rfl) id⟩

theorem inv_run (hfits : call.Fits)
    (run : Reaches (dynamicChain call) (start call) trace state) :
    Inv call trace state :=
  run.invariant (Inv call) (inv_start call) fun hinv _ hstep =>
    inv_step hfits hinv hstep

end Runs

end Citor.DynamicChain
