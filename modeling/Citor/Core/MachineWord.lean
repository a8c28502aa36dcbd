import Mathlib

/-!
# Machine words

Unsigned 64-bit values are naturals below `2 ^ 64`; an operation that can leave
that range goes through `word`.
-/

namespace Citor.MachineWord

/-- Unsigned 64-bit wraparound. -/
def word (value : ℕ) : ℕ :=
  value % 2 ^ 64

/-- The largest unsigned 32-bit value. -/
def uint32Max : ℕ :=
  2 ^ 32 - 1

theorem word_lt (value : ℕ) : word value < 2 ^ 64 :=
  Nat.mod_lt _ (by decide)

theorem word_of_lt {value : ℕ} (hlt : value < 2 ^ 64) : word value = value :=
  Nat.mod_eq_of_lt hlt

end Citor.MachineWord
