import Mathlib

/-!
# Done slots and exception capture

`parallelChain` and `parallelScan` share one pool-owned block of done slots.
A call reserves an interval of the pool's monotone epoch counter under the
dispatch gate and stamps absolute epochs into the slots; nothing resets a slot
between calls.  Both engines also share the first-exception protocol.
-/

namespace Citor.DoneSlots

/-- `m_chainDoneSlots` and `m_chainEpochBase` as a call finds them: every stamp
an earlier call left behind is at most the base the new call reserves. -/
structure ChainEpochs where
  epochBase : ℕ
  done : ℕ → ℕ
  done_le : ∀ slot, done slot ≤ epochBase

/-- The block as the pool constructor leaves it. -/
def ChainEpochs.fresh : ChainEpochs where
  epochBase := 0
  done := fun _ => 0
  done_le := fun _ => le_rfl

/-- The block after a call that reserved `advance` epochs and stamped nothing
above its last one. -/
def ChainEpochs.advance (epochs : ChainEpochs) (advance : ℕ) (done : ℕ → ℕ)
    (hdone : ∀ slot, done slot ≤ epochs.epochBase + advance) : ChainEpochs where
  epochBase := epochs.epochBase + advance
  done := done
  done_le := hdone

/-- `captureFirstException`: the compare-exchange from null, so the first
failure wins and later ones are dropped. -/
def captureFirstException {Failure : Type*} (firstException : Option Failure)
    (failure : Failure) : Option Failure :=
  match firstException with
  | none => some failure
  | some first => some first

@[simp]
theorem captureFirstException_ne_none {Failure : Type*}
    (firstException : Option Failure) (failure : Failure) :
    captureFirstException firstException failure ≠ none := by
  cases firstException <;> simp [captureFirstException]

theorem captureFirstException_eq {Failure : Type*}
    (firstException : Option Failure) (failure : Failure) :
    captureFirstException firstException failure = some failure ∨
      captureFirstException firstException failure = firstException := by
  cases firstException <;> simp [captureFirstException]

/-- How a synchronous call ends: it returns, or `rethrowIfCaptured` finds a
failure and rethrows it. -/
inductive Outcome (Failure : Type*)
  | returned
  | rethrew (failure : Failure)
  deriving DecidableEq, Repr

/-- `rethrowIfCaptured`. -/
def rethrowIfCaptured {Failure : Type*} :
    Option Failure → Outcome Failure
  | none => .returned
  | some failure => .rethrew failure

end Citor.DoneSlots
