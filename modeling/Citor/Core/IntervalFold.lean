import Mathlib

/-!
# Ordered folds over intervals

Left folds of a binary operation over the integers of an interval, in
increasing order.  Under the monoid laws adjacent intervals multiply; nothing
here needs the operation to commute.
-/

namespace Citor.IntervalFold

variable {M : Type*}

/-- The laws of a monoid, for a bare operation and unit. -/
structure MonoidLaws (op : M → M → M) (unit : M) : Prop where
  assoc : ∀ a b c, op (op a b) c = op a (op b c)
  left_id : ∀ a, op unit a = a
  right_id : ∀ a, op a unit = a

/-- The fold of `f` over `[lo, hi)`, from the left. -/
def intervalFold (op : M → M → M) (unit : M) (f : ℕ → M) (lo hi : ℕ) : M :=
  ((List.range' lo (hi - lo)).map f).foldl op unit

section Folds

variable {op : M → M → M} {unit : M} {f : ℕ → M} {lo mid hi : ℕ}

@[simp]
theorem intervalFold_self : intervalFold op unit f lo lo = unit := by
  simp [intervalFold]

theorem intervalFold_succ (hle : lo ≤ hi) :
    intervalFold op unit f lo (hi + 1) =
      op (intervalFold op unit f lo hi) (f hi) := by
  have hlength : hi + 1 - lo = (hi - lo) + 1 := by omega
  have hlast : lo + (hi - lo) = hi := by omega
  simp [intervalFold, hlength, List.range'_concat, hlast]

/-- Adjacent intervals multiply. -/
theorem intervalFold_append (hlaws : MonoidLaws op unit) (hlo : lo ≤ mid)
    (hhi : mid ≤ hi) :
    op (intervalFold op unit f lo mid) (intervalFold op unit f mid hi) =
      intervalFold op unit f lo hi := by
  induction hi, hhi using Nat.le_induction with
  | base => rw [intervalFold_self, hlaws.right_id]
  | succ hi hle ih =>
      calc op (intervalFold op unit f lo mid)
            (intervalFold op unit f mid (hi + 1))
          = op (intervalFold op unit f lo mid)
              (op (intervalFold op unit f mid hi) (f hi)) := by
            rw [intervalFold_succ hle]
        _ = op (op (intervalFold op unit f lo mid)
              (intervalFold op unit f mid hi)) (f hi) := by
            rw [hlaws.assoc]
        _ = intervalFold op unit f lo (hi + 1) := by
            rw [ih, intervalFold_succ (hlo.trans hle)]

end Folds

end Citor.IntervalFold
