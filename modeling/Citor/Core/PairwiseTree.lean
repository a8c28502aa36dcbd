import Mathlib

/-!
# Pairwise reduction trees

The tree over the leaves `0 .. count - 1` whose level `k` has one node for each
block of `2 ^ k` consecutive leaves.  A node combines its two children in leaf
order; a block whose right half is empty is its left child.  The shape depends
on `count` alone.  For an associative operation a node is the fold of its
block in leaf order.
-/

namespace Citor.PairwiseTree

variable {α : Type*}

/-- Node `index` of level `level` over `count` leaves. -/
def node (combine : α → α → α) (count : ℕ) (leaf : ℕ → α) : ℕ → ℕ → α
  | 0, index => leaf index
  | level + 1, index =>
      if (2 * index + 1) * 2 ^ level < count then
        combine (node combine count leaf level (2 * index))
          (node combine count leaf level (2 * index + 1))
      else node combine count leaf level (2 * index)

/-- The root: the first node of the lowest level that spans all leaves. -/
def pairwiseTree (combine : α → α → α) (count : ℕ) (leaf : ℕ → α) : α :=
  node combine count leaf (Nat.clog 2 count) 0

/-- The leaves `first .. first + length` folded from the left. -/
def foldLeaves (combine : α → α → α) (leaf : ℕ → α) (first length : ℕ) : α :=
  ((List.range' (first + 1) length).map leaf).foldl combine (leaf first)

variable (combine : α → α → α) (leaf : ℕ → α) {count : ℕ}

@[simp]
theorem foldLeaves_zero (first : ℕ) :
    foldLeaves combine leaf first 0 = leaf first := by
  simp [foldLeaves]

/-- Two adjacent blocks fold to the fold of both. -/
theorem foldLeaves_append [Std.Associative combine] (first left right : ℕ) :
    combine (foldLeaves combine leaf first left)
        (foldLeaves combine leaf (first + left + 1) right) =
      foldLeaves combine leaf first (left + right + 1) := by
  have hsplit : List.range' (first + 1) (left + right + 1) =
      List.range' (first + 1) left ++
        (first + left + 1) :: List.range' (first + left + 2) right := by
    have hlength : left + right + 1 = left + (right + 1) := by omega
    rw [hlength, ← List.range'_append_1, List.range'_succ]
    congr 2
    · omega
    · congr 1
      omega
  unfold foldLeaves
  rw [hsplit, List.map_append, List.map_cons, List.foldl_append,
    List.foldl_cons, List.foldl_assoc]

/-- A node is the in-order fold of the leaves of its block. -/
theorem node_eq_foldLeaves [Std.Associative combine] (level index : ℕ)
    (hindex : index * 2 ^ level < count) :
    node combine count leaf level index =
      foldLeaves combine leaf (index * 2 ^ level)
        (min ((index + 1) * 2 ^ level) count - index * 2 ^ level - 1) := by
  induction level generalizing index with
  | zero =>
      have hlength : min (index + 1) count - index - 1 = 0 := by omega
      simp [node, hlength]
  | succ level ih =>
      have hpos : 0 < 2 ^ level := Nat.two_pow_pos level
      have hleft : 2 * index * 2 ^ level = index * 2 ^ (level + 1) := by ring
      have hmiddle : (2 * index + 1) * 2 ^ level =
          index * 2 ^ (level + 1) + 2 ^ level := by ring
      have hright : (2 * index + 1 + 1) * 2 ^ level =
          (index + 1) * 2 ^ (level + 1) := by ring
      have hend : (index + 1) * 2 ^ (level + 1) =
          index * 2 ^ (level + 1) + 2 ^ level + 2 ^ level := by ring
      simp only [node]
      rw [ih (2 * index) (by omega)]
      split
      next hsplit =>
        rw [ih (2 * index + 1) hsplit]
        have hstart : (2 * index + 1) * 2 ^ level =
            index * 2 ^ (level + 1) + (2 ^ level - 1) + 1 := by omega
        rw [hright, hleft, hstart]
        have hcover : min (index * 2 ^ (level + 1) + (2 ^ level - 1) + 1) count -
            index * 2 ^ (level + 1) - 1 = 2 ^ level - 1 := by omega
        rw [hcover, foldLeaves_append combine leaf]
        congr 1
        omega
      next hsplit =>
        rw [hleft, hmiddle]
        congr 1
        omega

/-- With an associative operation the tree is the left fold in leaf order. -/
theorem pairwiseTree_eq_foldLeaves [Std.Associative combine]
    (hcount : 0 < count) :
    pairwiseTree combine count leaf = foldLeaves combine leaf 0 (count - 1) := by
  have hspan : count ≤ 2 ^ Nat.clog 2 count := Nat.le_pow_clog (by decide) count
  unfold pairwiseTree
  rw [node_eq_foldLeaves combine leaf _ 0 (by omega)]
  congr 1
  · simp
  · simp only [Nat.zero_mul, Nat.zero_add, Nat.one_mul]
    omega

/-- Leaves outside of the tree do not matter. -/
theorem node_congr {leaf other : ℕ → α}
    (hleaf : ∀ index < count, leaf index = other index) (level index : ℕ)
    (hindex : index * 2 ^ level < count) :
    node combine count leaf level index =
      node combine count other level index := by
  induction level generalizing index with
  | zero => exact hleaf index (by simpa using hindex)
  | succ level ih =>
      have hleft : 2 * index * 2 ^ level = index * 2 ^ (level + 1) := by ring
      simp only [node]
      rw [ih (2 * index) (by omega)]
      split
      next hsplit => rw [ih (2 * index + 1) hsplit]
      next => rfl

end Citor.PairwiseTree
