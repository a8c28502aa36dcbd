import Mathlib

/-!
# Labels on consecutive positions

A labelling of the positions below a size cuts them into fibers.  The fibers in
label order concatenate to the positions in order exactly when the labels never
decrease, and then each initial part of the labels covers an initial part of
the positions.
-/

namespace Citor.OrderedLabels

/-- The positions below `size` that carry a label, in order. -/
def fiber (label : ℕ → ℕ) (size k : ℕ) : List ℕ :=
  (List.range size).filter fun i => label i = k

variable {label : ℕ → ℕ} {size : ℕ}

@[simp] theorem mem_fiber {k i : ℕ} :
    i ∈ fiber label size k ↔ i < size ∧ label i = k := by
  simp [fiber]

/-- No label is smaller than that of the position before it. -/
def Monotone (label : ℕ → ℕ) (size : ℕ) : Prop :=
  ∀ i, i + 1 < size → label i ≤ label (i + 1)

theorem Monotone.le (hmono : Monotone label size) {i j : ℕ} (hij : i ≤ j)
    (hj : j < size) : label i ≤ label j := by
  induction j, hij using Nat.le_induction with
  | base => exact le_refl _
  | succ j hij ih =>
      calc
        label i ≤ label j := ih (by omega)
        _ ≤ label (j + 1) := hmono j hj

theorem Monotone.of_succ (hmono : Monotone label (size + 1)) :
    Monotone label size :=
  fun i hi => hmono i (by omega)

/-- A run of positions with one label that is as long as the label's fiber is
the fiber. -/
theorem fiber_eq_range' {k first : ℕ}
    (hrun : ∀ i < (fiber label size k).length,
      first + i < size ∧ label (first + i) = k) :
    fiber label size k =
      List.range' first (fiber label size k).length := by
  set count := (fiber label size k).length with hcount
  rcases Nat.eq_zero_or_pos count with hzero | hpos
  · rw [hzero, List.range'_zero]
    exact List.length_eq_zero_iff.1 (hcount ▸ hzero)
  have hlast := (hrun (count - 1) (by omega)).1
  have hsub : (List.range' first count).Sublist (List.range size) := by
    have hsplit : List.range size =
        List.range' 0 first ++ (List.range' first count ++
          List.range' (first + count) (size - (first + count))) := by
      rw [List.range'_append_1, List.range_eq_range']
      have happend := List.range'_append_1
        (s := 0) (m := first) (n := count + (size - (first + count)))
      rw [Nat.zero_add] at happend
      rw [happend]
      congr 1
      omega
    rw [hsplit]
    exact (List.sublist_append_left _ _).trans
      (List.sublist_append_right _ _)
  have hfilter : (List.range' first count).filter
      (fun i => decide (label i = k)) = List.range' first count := by
    rw [List.filter_eq_self]
    intro i hi
    obtain ⟨offset, hoffset, rfl⟩ := List.mem_range'.1 hi
    simpa using (hrun offset hoffset).2
  have hsublist : (List.range' first count).Sublist
      (fiber label size k) := by
    rw [← hfilter]
    exact hsub.filter _
  exact (hsublist.eq_of_length (by rw [List.length_range'])).symm

/-- Where no other label stands between two positions of one label, each fiber
is a run. -/
theorem run_of_between
    (hbetween : ∀ i j l, i < j → j < l → l < size → label i = label l →
      label j = label i)
    {k first : ℕ} (hfirst : label first = k)
    (hleast : ∀ i < first, label i ≠ k) :
    ∀ i < (fiber label size k).length,
      first + i < size ∧ label (first + i) = k := by
  intro i hi
  by_contra hbreak
  have hsubset : fiber label size k ⊆ List.range' first i := by
    intro position hposition
    obtain ⟨hlt, hlabel⟩ := mem_fiber.1 hposition
    have hge : first ≤ position := by
      by_contra hearlier
      exact hleast position (by omega) hlabel
    rw [List.mem_range'_1]
    refine ⟨hge, ?_⟩
    by_contra hpast
    rcases Nat.eq_zero_or_pos i with rfl | hpos
    · exact hbreak ⟨by omega, hfirst⟩
    rcases Nat.eq_or_lt_of_le (Nat.le_of_not_lt hpast) with heq | hlater
    · exact hbreak ⟨by omega, heq ▸ hlabel⟩
    · have hsame := hbetween first (first + i) position (by omega) hlater hlt
        (hfirst.trans hlabel.symm)
      exact hbreak ⟨by omega, hsame.trans hfirst⟩
  have hnodup : (fiber label size k).Nodup := List.nodup_range.filter _
  have hlength := (List.subperm_of_subset hnodup hsubset).length_le
  rw [List.length_range'] at hlength
  omega

/-- The positions with a label below `k`. -/
def below (label : ℕ → ℕ) (size k : ℕ) : List ℕ :=
  (List.range size).filter fun i => label i < k

theorem below_eq_range (hmono : Monotone label size) (k : ℕ) :
    below label size k = List.range (below label size k).length := by
  induction size with
  | zero => rfl
  | succ size ih =>
      have hrest := ih hmono.of_succ
      unfold below at hrest ⊢
      rw [List.range_succ, List.filter_append]
      by_cases hlast : label size < k
      · have hall : (List.range size).filter (fun i => decide (label i < k)) =
            List.range size := by
          rw [List.filter_eq_self]
          intro i hi
          have hle := hmono.le (List.mem_range.1 hi).le (Nat.lt_succ_self _)
          simp only [decide_eq_true_eq]
          omega
        simp [hall, hlast, List.range_succ]
      · simpa [hlast] using hrest

theorem below_succ (hmono : Monotone label size) (k : ℕ) :
    below label size (k + 1) = below label size k ++ fiber label size k := by
  induction size with
  | zero => rfl
  | succ size ih =>
      have hrest := ih hmono.of_succ
      unfold below fiber at hrest ⊢
      rw [List.range_succ, List.filter_append, List.filter_append,
        List.filter_append, hrest]
      rcases lt_trichotomy (label size) k with hlt | heq | hgt
      · have hnone : (List.range size).filter
            (fun i => decide (label i = k)) = [] := by
          rw [List.filter_eq_nil_iff]
          intro i hi
          have hle := hmono.le (List.mem_range.1 hi).le (Nat.lt_succ_self _)
          simp only [decide_eq_true_eq]
          omega
        have hne : label size ≠ k := by omega
        simp [hnone, hlt, hne, hlt.le]
      · simp [heq]
      · have hne : label size ≠ k := by omega
        have hnlt : ¬label size < k := by omega
        simp [hne, hnlt, hgt]

/-- The fibers of the first labels, concatenated. -/
theorem flatMap_fiber (hmono : Monotone label size) (k : ℕ) :
    (List.range k).flatMap (fiber label size) = below label size k := by
  induction k with
  | zero => simp [below]
  | succ k ih =>
      rw [List.range_succ, List.flatMap_append, ih, below_succ hmono]
      simp

theorem concat_of_monotone (hmono : Monotone label size) {labels : ℕ}
    (hlt : ∀ i < size, label i < labels) :
    (List.range labels).flatMap (fiber label size) = List.range size := by
  rw [flatMap_fiber hmono, below, List.filter_eq_self]
  intro i hi
  simpa using hlt i (List.mem_range.1 hi)

theorem monotone_of_concat {labels : ℕ} (hlt : ∀ i < size, label i < labels)
    (hconcat : (List.range labels).flatMap (fiber label size) =
      List.range size) :
    Monotone label size := by
  intro i hi
  by_contra hgt
  have hsorted : ((List.range labels).flatMap (fiber label size)).Pairwise
      (· < ·) := hconcat ▸ List.pairwise_lt_range
  have hblocks := (List.pairwise_flatMap.1 hsorted).2
  have hlater : i + 1 < i := by
    have horder := List.pairwise_iff_getElem.1 hblocks (label (i + 1))
      (label i) (by simpa using hlt (i + 1) hi)
      (by simpa using hlt i (by omega)) (by omega)
    simp only [List.getElem_range, mem_fiber] at horder
    exact horder (i + 1) ⟨hi, rfl⟩ i ⟨by omega, rfl⟩
  omega

/-- Where a fiber is an interval, the labels below it cover the positions in
front of it. -/
theorem flatMap_fiber_eq_range (hmono : Monotone label size) {k first count : ℕ}
    (hfiber : fiber label size k = List.range' first (count + 1)) :
    (List.range k).flatMap (fiber label size) = List.range first := by
  rw [flatMap_fiber hmono, below_eq_range hmono]
  have hsucc := below_succ hmono k
  rw [below_eq_range hmono (k + 1), below_eq_range hmono k, hfiber] at hsucc
  set here := (below label size k).length
  have hat := congrArg (fun positions => positions[here]?) hsucc
  have hlen := congrArg List.length hsucc
  simp only [List.length_append, List.length_range, List.length_range']
    at hlen
  rw [List.getElem?_append_right (by simp), List.getElem?_range (by omega)]
    at hat
  have hfirst : here = first := by simpa using hat
  rw [hfirst]

end Citor.OrderedLabels
