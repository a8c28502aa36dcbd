import Citor.Engine.DoneSlots

/-!
# The slots of one call

The chain and plex engines run their slots over one kind of state: a program
counter and a done word for each slot, a cancellation flag, the stop token and
the first exception.  This module holds that state, the scan of
`waitAllSlotsDone`, and what a step of one slot may do to the words of the
others.
-/

namespace Citor.SlotRunners

open Citor.DoneSlots

/-- The words of one call; `own` are those that only one engine has. -/
structure State (Pc Failure Own : Type) where
  pc : ℕ → Pc
  done : ℕ → ℕ
  /-- `chainCancelled` of a chain, `phaseCancelled` of a plex. -/
  cancelled : Bool
  stopRequested : Bool
  firstException : Option Failure
  outcome : Option (Outcome Failure)
  own : Own

namespace State

variable {Pc Failure Own : Type} (state : State Pc Failure Own)

def setPc (slot : ℕ) (pc : Pc) : State Pc Failure Own :=
  { state with pc := Function.update state.pc slot pc }

def stamp (slot epoch : ℕ) : State Pc Failure Own :=
  { state with done := Function.update state.done slot epoch }

/-- Every slot has returned, so the dispatch join goes through. -/
def allLeft (hasLeft : Pc → Bool) (participants : ℕ) : Bool :=
  (List.range participants).all fun slot => hasLeft (state.pc slot)

/-- Somebody asked to stop or a failure was captured. -/
def disturbed : Prop :=
  state.stopRequested = true ∨ state.firstException ≠ none

theorem allLeft_iff {hasLeft : Pc → Bool} {participants : ℕ} :
    state.allLeft hasLeft participants = true ↔
      ∀ slot < participants, hasLeft (state.pc slot) = true := by
  simp [allLeft]

theorem allLeft_of_running {hasLeft : Pc → Bool} {participants slot : ℕ}
    (hslot : slot < participants) (hruns : hasLeft (state.pc slot) = false) :
    state.allLeft hasLeft participants = false := by
  by_contra hall
  have hleft := state.allLeft_iff.1 (by simpa using hall) slot hslot
  simp [hruns] at hleft

end State

/-! ## The shifted scan -/

/-- The peer that `waitAllSlotsDone` of `self` reads at `step`. -/
def scanPeer (participants self step : ℕ) : ℕ :=
  if self + step < participants then self + step
  else self + step - participants

section Scan

variable {participants self : ℕ}

theorem scanPeer_lt {step : ℕ} (hself : self < participants)
    (hstep : step < participants) :
    scanPeer participants self step < participants := by
  unfold scanPeer
  split <;> omega

/-- The scan visits every peer. -/
theorem exists_scanPeer_eq {peer : ℕ} (hself : self < participants)
    (hpeer : peer < participants) (hne : peer ≠ self) :
    ∃ step, 1 ≤ step ∧ step < participants ∧
      scanPeer participants self step = peer := by
  rcases lt_or_gt_of_ne hne with hless | hmore
  · refine ⟨peer + participants - self, by omega, by omega, ?_⟩
    unfold scanPeer
    split <;> omega
  · refine ⟨peer - self, by omega, by omega, ?_⟩
    unfold scanPeer
    split <;> omega

end Scan

/-! ## What a step leaves alone -/

section Steps

variable {Pc Failure Own : Type} {passed : Pc → ℕ}
variable {before after : State Pc Failure Own} {slot : ℕ} {pc : Pc}

/-- Stamps, progress and flags only grow. -/
structure Grows (passed : Pc → ℕ) (before after : State Pc Failure Own) :
    Prop where
  passed : ∀ slot, passed (before.pc slot) ≤ passed (after.pc slot)
  done : ∀ slot, before.done slot ≤ after.done slot
  cancelled : before.cancelled = true → after.cancelled = true
  stopRequested : before.stopRequested = true → after.stopRequested = true
  firstException : before.firstException ≠ none → after.firstException ≠ none

/-- What a step of a slot does to the words it does not own: its own program
counter moves forward, the rest only grows. -/
structure Moves (passed : Pc → ℕ) (slot : ℕ) (pc : Pc)
    (before after : State Pc Failure Own) : Prop where
  atPc : after.pc = Function.update before.pc slot pc
  forward : passed (before.pc slot) ≤ passed pc
  others : ∀ other, other ≠ slot → after.done other = before.done other
  done : before.done slot ≤ after.done slot
  cancelled : before.cancelled = true → after.cancelled = true
  stopRequested : after.stopRequested = before.stopRequested
  firstException : before.firstException ≠ none → after.firstException ≠ none
  outcome : after.outcome = before.outcome

theorem Grows.disturbed (hgrows : Grows passed before after)
    (hdisturbed : before.disturbed) : after.disturbed :=
  hdisturbed.imp hgrows.stopRequested hgrows.firstException

theorem Moves.grows (hmoves : Moves passed slot pc before after) :
    Grows passed before after where
  passed other := by
    rw [hmoves.atPc]
    by_cases hother : other = slot
    · subst hother
      simpa using hmoves.forward
    · simp [hother]
  done other := by
    by_cases hother : other = slot
    · subst hother
      exact hmoves.done
    · rw [hmoves.others other hother]
  cancelled := hmoves.cancelled
  stopRequested := by
    rw [hmoves.stopRequested]
    exact id
  firstException := hmoves.firstException

/-- A step that only moves the program counter. -/
theorem moves_setPc (hpassed : passed (before.pc slot) ≤ passed pc) :
    Moves passed slot pc before (before.setPc slot pc) :=
  ⟨rfl, hpassed, fun _ _ => rfl, le_rfl, id, rfl, id, rfl⟩

/-- A step that also stamps. -/
theorem moves_stamp {epoch : ℕ} (hpassed : passed (before.pc slot) ≤ passed pc)
    (hepoch : before.done slot ≤ epoch) :
    Moves passed slot pc before ((before.stamp slot epoch).setPc slot pc) := by
  refine ⟨rfl, hpassed, fun other hother => ?_, ?_, id, rfl, id, rfl⟩
  · simp [State.setPc, State.stamp, hother]
  · simpa [State.setPc, State.stamp] using hepoch

/-- A step that also raises the flag. -/
theorem moves_cancel (hpassed : passed (before.pc slot) ≤ passed pc) :
    Moves passed slot pc before
      ({ before with cancelled := true }.setPc slot pc) :=
  ⟨rfl, hpassed, fun _ _ => rfl, le_rfl, fun _ => rfl, rfl, id, rfl⟩

/-- A step that also offers a failure. -/
theorem moves_capture {failure : Failure}
    (hpassed : passed (before.pc slot) ≤ passed pc) :
    Moves passed slot pc before
      ({ before with
        firstException :=
          captureFirstException before.firstException failure }.setPc
        slot pc) :=
  ⟨rfl, hpassed, fun _ _ => rfl, le_rfl, id, rfl,
    fun _ => captureFirstException_ne_none _ _, rfl⟩

end Steps

/-! ## Stamps -/

/-- A slot has stamped at most what it is past, unless it left a cancelled
call with the final stamp. -/
abbrev StampLe {Pc Failure Own : Type} (passed : Pc → ℕ) (hasLeft : Pc → Bool)
    (epochBase final : ℕ) (state : State Pc Failure Own) (slot : ℕ) : Prop :=
  state.done slot ≤ epochBase + passed (state.pc slot) ∨
    (state.cancelled = true ∧ hasLeft (state.pc slot) = true ∧
      state.done slot = epochBase + final)

section Stamps

variable {Pc Failure Own : Type} {passed : Pc → ℕ} {hasLeft : Pc → Bool}
variable {epochBase final slot : ℕ} {before after : State Pc Failure Own}

/-- A slot that is still running. -/
theorem StampLe.of_running
    (hstamp : StampLe passed hasLeft epochBase final before slot)
    (hruns : hasLeft (before.pc slot) = false) :
    before.done slot ≤ epochBase + passed (before.pc slot) := by
  rcases hstamp with hle | ⟨-, hleft, -⟩
  · exact hle
  · simp [hruns] at hleft

/-- In a call that goes on. -/
theorem StampLe.of_clear
    (hstamp : StampLe passed hasLeft epochBase final before slot)
    (hclear : before.cancelled = false) :
    before.done slot ≤ epochBase + passed (before.pc slot) := by
  rcases hstamp with hle | ⟨hcancelled, -⟩
  · exact hle
  · simp [hclear] at hcancelled

/-- A slot that does not move. -/
theorem StampLe.mono (hgrows : Grows passed before after)
    (hpc : after.pc slot = before.pc slot)
    (hdone : after.done slot = before.done slot)
    (hstamp : StampLe passed hasLeft epochBase final before slot) :
    StampLe passed hasLeft epochBase final after slot := by
  rw [StampLe, hpc, hdone]
  exact hstamp.imp id fun hleft => ⟨hgrows.cancelled hleft.1, hleft.2⟩

end Stamps

/-! ## The first exception -/

/-- The protocol keeps the first failure that was offered. -/
theorem captureFirstException_head? {Event Failure : Type}
    (offered : Event → Option Failure) (trace : List Event) {event : Event}
    {failure : Failure} (hoffered : offered event = some failure) :
    captureFirstException (trace.filterMap offered).head? failure =
      ((trace ++ [event]).filterMap offered).head? := by
  rw [List.filterMap_append]
  cases trace.filterMap offered <;>
    simp [captureFirstException, hoffered]

end Citor.SlotRunners
