import Mathlib

/-!
# Ranges that tile an interval

Half-open ranges of naturals, numbered from zero, that are disjoint and fill
`[0, n)`.  Consecutive values of a monotone function tile; so do two such
functions laid out one behind the other, where a predicate on the numbers says
which of the two a range belongs to.
-/

namespace Citor.IntervalTiling

/-- The points of a half-open range. -/
def points (range : ℕ × ℕ) : Set ℕ :=
  Set.Ico range.1 range.2

structure Tiles (count n : ℕ) (range : ℕ → ℕ × ℕ) : Prop where
  disjoint : ∀ left < count, ∀ right < count, left ≠ right →
    Disjoint (points (range left)) (points (range right))
  union : ⋃ slot ∈ Set.Iio count, points (range slot) = Set.Ico 0 n

/-- A tiling in the order of the numbers, by ranges of nearly one size. -/
structure Balanced (count n : ℕ) (range : ℕ → ℕ × ℕ) : Prop
    extends Tiles count n range where
  first : (range 0).1 = 0
  next : ∀ slot, slot + 1 < count → (range slot).2 = (range (slot + 1)).1
  last : (range (count - 1)).2 = n
  sizes : ∀ left < count, ∀ right < count,
    (range left).2 - (range left).1 ≤ (range right).2 - (range right).1 + 1

/-- A tiling, point by point. -/
theorem tiles_iff {count n : ℕ} {range : ℕ → ℕ × ℕ} :
    Tiles count n range ↔
      (∀ left < count, ∀ right < count, left ≠ right →
        ∀ point ∈ points (range left), point ∉ points (range right)) ∧
      ∀ point, (∃ slot < count, point ∈ points (range slot)) ↔ point < n := by
  constructor
  · rintro ⟨hdisjoint, hunion⟩
    refine ⟨fun left hleft right hright hne point hpoint =>
      Set.disjoint_left.1 (hdisjoint left hleft right hright hne) hpoint,
      fun point => ?_⟩
    have hpoint := congrArg (point ∈ ·) hunion
    simpa [eq_iff_iff] using hpoint
  · rintro ⟨hdisjoint, hcover⟩
    refine ⟨fun left hleft right hright hne => Set.disjoint_left.2
      fun point hpoint => hdisjoint left hleft right hright hne point hpoint,
      ?_⟩
    ext point
    simpa using hcover point

section Bounds

variable {bound : ℕ → ℕ} (hmono : Monotone bound)
include hmono

/-- Consecutive ranges share no point. -/
theorem bounds_apart {left right point : ℕ} (hne : left ≠ right)
    (hleft : bound left ≤ point ∧ point < bound (left + 1)) :
    ¬ (bound right ≤ point ∧ point < bound (right + 1)) := by
  rintro ⟨hge, hlt⟩
  rcases Nat.lt_or_gt_of_ne hne with hbefore | hafter
  · have hstep : bound (left + 1) ≤ bound right := hmono hbefore
    omega
  · have hstep : bound (right + 1) ≤ bound left := hmono hafter
    omega

omit hmono in
/-- A point between the first and the last bound is in a range. -/
theorem exists_between {count point : ℕ} (hge : bound 0 ≤ point)
    (hlt : point < bound count) :
    ∃ index < count, bound index ≤ point ∧ point < bound (index + 1) := by
  induction count with
  | zero => omega
  | succ count ih =>
      by_cases hbefore : point < bound count
      · obtain ⟨index, hindex, hin⟩ := ih hbefore
        exact ⟨index, by omega, hin⟩
      · exact ⟨count, by omega, by omega, hlt⟩

theorem exists_between_iff (count point : ℕ) :
    (∃ index < count, bound index ≤ point ∧ point < bound (index + 1)) ↔
      bound 0 ≤ point ∧ point < bound count := by
  constructor
  · rintro ⟨index, hindex, hge, hlt⟩
    have hfirst := hmono (Nat.zero_le index)
    have hlast : bound (index + 1) ≤ bound count := hmono hindex
    omega
  · rintro ⟨hge, hlt⟩
    exact exists_between hge hlt

variable {count n : ℕ} {range : ℕ → ℕ × ℕ}

theorem tiles_of_bounds (hfirst : bound 0 = 0) (hlast : bound count = n)
    (hrange : ∀ slot < count, range slot = (bound slot, bound (slot + 1))) :
    Tiles count n range := by
  rw [tiles_iff]
  constructor
  · intro left hleft right hright hne point hpoint
    rw [hrange left hleft] at hpoint
    rw [hrange right hright]
    exact bounds_apart hmono hne hpoint
  · intro point
    have hbetween := exists_between_iff hmono count point
    rw [hfirst, hlast] at hbetween
    constructor
    · rintro ⟨slot, hslot, hpoint⟩
      rw [hrange slot hslot] at hpoint
      exact (hbetween.1 ⟨slot, hslot, hpoint⟩).2
    · intro hlt
      obtain ⟨slot, hslot, hpoint⟩ := hbetween.2 ⟨Nat.zero_le _, hlt⟩
      refine ⟨slot, hslot, ?_⟩
      rw [hrange slot hslot]
      exact hpoint

/-- Ranges whose sizes are all `base` or `base + 1`. -/
theorem balanced_of_bounds {base : ℕ} (hcount : 0 < count)
    (hfirst : bound 0 = 0) (hlast : bound count = n)
    (hrange : ∀ slot < count, range slot = (bound slot, bound (slot + 1)))
    (hsize : ∀ slot, bound slot + base ≤ bound (slot + 1) ∧
      bound (slot + 1) ≤ bound slot + base + 1) :
    Balanced count n range where
  toTiles := tiles_of_bounds hmono hfirst hlast hrange
  first := by rw [hrange 0 hcount, hfirst]
  next slot hslot := by
    rw [hrange slot (by omega), hrange (slot + 1) hslot]
  last := by
    rw [hrange _ (by omega), Nat.sub_add_cancel hcount, hlast]
  sizes left hleft right hright := by
    have hbelow := hsize left
    have habove := hsize right
    rw [hrange left hleft, hrange right hright]
    dsimp only
    omega

end Bounds

/-! ## Two groups -/

section Groups

variable (member : ℕ → Prop) [DecidablePred member]

/-- Every index of a group is some member's. -/
theorem exists_of_lt_count {count index : ℕ}
    (hindex : index < Nat.count member count) :
    ∃ slot < count, member slot ∧ Nat.count member slot = index := by
  induction count with
  | zero => simp at hindex
  | succ count ih =>
      by_cases hbefore : index < Nat.count member count
      · obtain ⟨slot, hslot, hmember⟩ := ih hbefore
        exact ⟨slot, by omega, hmember⟩
      · rw [Nat.count_succ] at hindex
        split at hindex
        next hmember => exact ⟨count, by omega, hmember, by omega⟩
        next => omega

theorem count_lt_count {count slot : ℕ} (hslot : slot < count)
    (hmember : member slot) :
    Nat.count member slot < Nat.count member count :=
  Nat.count_strict_mono hmember hslot

/-- The ranges of the members, in the order of their indices. -/
theorem exists_member_iff {bound : ℕ → ℕ} (hmono : Monotone bound)
    (count point : ℕ) :
    (∃ slot < count, member slot ∧ bound (Nat.count member slot) ≤ point ∧
        point < bound (Nat.count member slot + 1)) ↔
      bound 0 ≤ point ∧ point < bound (Nat.count member count) := by
  rw [← exists_between_iff hmono (Nat.count member count) point]
  constructor
  · rintro ⟨slot, hslot, hmember, hin⟩
    exact ⟨_, count_lt_count member hslot hmember, hin⟩
  · rintro ⟨index, hindex, hin⟩
    obtain ⟨slot, hslot, hmember, rfl⟩ := exists_of_lt_count member hindex
    exact ⟨slot, hslot, hmember, hin⟩

theorem tiles_of_groups (front back : ℕ → ℕ) (hfront : Monotone front)
    (hback : Monotone back) {count n : ℕ} {range : ℕ → ℕ × ℕ}
    (hzero : front 0 = 0)
    (hmeet : front (Nat.count member count) = back 0)
    (hlast : back (Nat.count (fun slot => ¬ member slot) count) = n)
    (hmember : ∀ slot < count, member slot → range slot =
      (front (Nat.count member slot), front (Nat.count member slot + 1)))
    (hother : ∀ slot < count, ¬ member slot → range slot =
      (back (Nat.count (fun slot => ¬ member slot) slot),
        back (Nat.count (fun slot => ¬ member slot) slot + 1))) :
    Tiles count n range := by
  have hin : ∀ point, (∃ slot < count, member slot ∧
      point ∈ points (range slot)) ↔ point < back 0 := by
    intro point
    have hiff := exists_member_iff member hfront count point
    rw [hzero, hmeet] at hiff
    constructor
    · rintro ⟨slot, hslot, hyes, hpoint⟩
      rw [hmember slot hslot hyes] at hpoint
      exact (hiff.1 ⟨slot, hslot, hyes, hpoint⟩).2
    · intro hlt
      obtain ⟨slot, hslot, hyes, hpoint⟩ := hiff.2 ⟨Nat.zero_le _, hlt⟩
      exact ⟨slot, hslot, hyes, by rw [hmember slot hslot hyes]; exact hpoint⟩
  have hout : ∀ point, (∃ slot < count, ¬ member slot ∧
      point ∈ points (range slot)) ↔ back 0 ≤ point ∧ point < n := by
    intro point
    have hiff := exists_member_iff (fun slot => ¬ member slot) hback count
      point
    rw [hlast] at hiff
    rw [← hiff]
    constructor
    · rintro ⟨slot, hslot, hno, hpoint⟩
      rw [hother slot hslot hno] at hpoint
      exact ⟨slot, hslot, hno, hpoint⟩
    · rintro ⟨slot, hslot, hno, hpoint⟩
      exact ⟨slot, hslot, hno, by rw [hother slot hslot hno]; exact hpoint⟩
  rw [tiles_iff]
  constructor
  · intro left hleft right hright hne point hpoint hpoint'
    by_cases hl : member left <;> by_cases hr : member right
    · rw [hmember left hleft hl] at hpoint
      rw [hmember right hright hr] at hpoint'
      exact bounds_apart hfront
        (fun heq => hne (Nat.count_injective hl hr heq)) hpoint hpoint'
    · have hbelow := (hin point).1 ⟨left, hleft, hl, hpoint⟩
      have habove := (hout point).1 ⟨right, hright, hr, hpoint'⟩
      omega
    · have habove := (hout point).1 ⟨left, hleft, hl, hpoint⟩
      have hbelow := (hin point).1 ⟨right, hright, hr, hpoint'⟩
      omega
    · rw [hother left hleft hl] at hpoint
      rw [hother right hright hr] at hpoint'
      exact bounds_apart hback (fun heq => hne (Nat.count_injective
        (p := fun slot => ¬ member slot) hl hr heq)) hpoint hpoint'
  · intro point
    have hle : back 0 ≤ n := hlast ▸ hback (Nat.zero_le _)
    constructor
    · rintro ⟨slot, hslot, hpoint⟩
      by_cases hyes : member slot
      · have := (hin point).1 ⟨slot, hslot, hyes, hpoint⟩
        omega
      · exact ((hout point).1 ⟨slot, hslot, hyes, hpoint⟩).2
    · intro hlt
      by_cases hbelow : point < back 0
      · obtain ⟨slot, hslot, -, hpoint⟩ := (hin point).2 hbelow
        exact ⟨slot, hslot, hpoint⟩
      · obtain ⟨slot, hslot, -, hpoint⟩ := (hout point).2 ⟨by omega, hlt⟩
        exact ⟨slot, hslot, hpoint⟩

theorem count_add_count_not (count : ℕ) :
    Nat.count member count + Nat.count (fun slot => ¬ member slot) count =
      count := by
  induction count with
  | zero => simp
  | succ count ih =>
      rw [Nat.count_succ, Nat.count_succ]
      by_cases hmember : member count
      · simp only [hmember, if_true, not_true, if_false]
        omega
      · simp only [hmember, if_false, not_false_iff, if_true]
        omega

end Groups

end Citor.IntervalTiling
