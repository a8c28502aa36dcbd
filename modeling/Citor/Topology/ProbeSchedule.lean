import Citor.Core.MachineWord

/-!
# The schedule of the latency probe

`roundRobinPairs` pairs the participants of a probe by the circle method: an
array of the participants is folded in the middle for a round, then everyone
but the pivot moves one place on.  For an odd number a bye slot is added and
its pairs are dropped.  The counts are 32-bit words.
-/

namespace Citor.ProbeSchedule

open Citor.MachineWord

/-- `arr[i] = arr[i - 1]`, from `i` down to the second element. -/
def shiftRight : ℕ → List ℕ → List ℕ
  | 0, arr => arr
  | i + 1, arr =>
      if 1 < i + 1 then shiftRight i (arr.set (i + 1) (arr.getD i 0)) else arr

/-- The rotation behind a round; `none` when the last element is read outside
the array. -/
def rotate (m : ℕ) (arr : List ℕ) : Option (List ℕ) := do
  let last ← arr[m - 1]?
  return (shiftRight (m - 1) arr).set 1 last

/-- The pairs of a round. -/
def roundPairs (n m : ℕ) (addBye : Bool) (arr : List ℕ) : List (ℕ × ℕ) :=
  (List.range (m / 2)).filterMap fun i =>
    let a := arr.getD i 0
    let b := arr.getD (m - 1 - i) 0
    if addBye ∧ (a = n ∨ b = n) then none else some (a, b)

/-- The rounds still ahead. -/
def roundsFrom (n m : ℕ) (addBye : Bool) :
    ℕ → List ℕ → Option (List (List (ℕ × ℕ)))
  | 0, _ => some []
  | ahead + 1, arr => do
      let rotated ← rotate m arr
      let rounds ← roundsFrom n m addBye ahead rotated
      return roundPairs n m addBye arr :: rounds

/-- `roundRobinPairs`: `n` and `m` are 32-bit words. -/
def roundRobinPairs (n : ℕ) : Option (List (List (ℕ × ℕ))) :=
  if n < 2 then some []
  else
    let addBye := n % 2 ≠ 0
    let m := if addBye then (n + 1) % 2 ^ 32 else n
    roundsFrom n m addBye ((m + 2 ^ 32 - 1) % 2 ^ 32) (List.range m)

/-- Every pair of distinct participants meets in exactly one round, and nobody
is in two pairs of a round. -/
structure Complete (n : ℕ) (rounds : List (List (ℕ × ℕ))) : Prop where
  length_eq : rounds.length = if n % 2 = 0 then n - 1 else n
  disjoint : ∀ pairs ∈ rounds,
    (pairs.flatMap fun pair => [pair.1, pair.2]).Nodup
  lt : ∀ pairs ∈ rounds, ∀ pair ∈ pairs, pair.1 < n ∧ pair.2 < n
  meet : ∀ a < n, ∀ b < n, a ≠ b →
    ∃! r : ℕ, ∃ pairs, rounds[r]? = some pairs ∧ ((a, b) ∈ pairs ∨ (b, a) ∈ pairs)

/-! ## The array after some rotations -/

theorem length_shiftRight (i : ℕ) (arr : List ℕ) :
    (shiftRight i arr).length = arr.length := by
  induction i generalizing arr with
  | zero => rfl
  | succ i ih =>
      simp only [shiftRight]
      split
      · rw [ih, List.length_set]
      · rfl

theorem getElem?_shiftRight {i : ℕ} {arr : List ℕ} (hlt : i < arr.length)
    (j : ℕ) :
    (shiftRight i arr)[j]? =
      if 2 ≤ j ∧ j ≤ i then arr[j - 1]? else arr[j]? := by
  induction i generalizing arr with
  | zero =>
      rw [shiftRight, if_neg (by omega)]
  | succ i ih =>
      simp only [shiftRight]
      split
      next hone =>
        rw [ih (by simp; omega)]
        by_cases hmoved : 2 ≤ j ∧ j ≤ i
        · rw [if_pos hmoved, if_pos ⟨hmoved.1, by omega⟩,
            List.getElem?_set_ne (by omega)]
        by_cases htop : j = i + 1
        · subst htop
          rw [if_neg hmoved, if_pos ⟨by omega, le_rfl⟩,
            List.getElem?_set_self hlt, List.getD_eq_getElem?_getD,
            List.getElem?_eq_getElem (by omega)]
          simp
        · rw [if_neg hmoved, if_neg (by omega),
            List.getElem?_set_ne (Ne.symm htop)]
      next hone =>
        rw [if_neg (by omega)]

/-- Who sits at place `j` in round `r`. -/
def seat (m r j : ℕ) : ℕ :=
  if j = 0 then 0 else if r < j then j - r else j + (m - 1) - r

def seats (m r : ℕ) : List ℕ :=
  (List.range m).map (seat m r)

theorem seats_zero (m : ℕ) : seats m 0 = List.range m := by
  refine (List.map_congr_left fun j _ => ?_).trans (List.map_id _)
  unfold seat
  split
  · simp_all
  · rw [if_pos (by omega)]
    simp

theorem getElem?_seats {m j : ℕ} (r : ℕ) (hj : j < m) :
    (seats m r)[j]? = some (seat m r j) := by
  simp [seats, hj]

theorem seat_lt {m r j : ℕ} (hr : r < m - 1) (hj : j < m) :
    seat m r j < m := by
  unfold seat
  split_ifs <;> omega

theorem rotate_seats {m r : ℕ} (hr : r < m - 1) :
    rotate m (seats m r) = some (seats m (r + 1)) := by
  have hlength : (seats m r).length = m := by simp [seats]
  rw [rotate, getElem?_seats r (by omega)]
  simp only [Option.bind_eq_bind, Option.bind_some, Option.pure_def,
    Option.some.injEq]
  apply List.ext_getElem?
  intro j
  by_cases hj : j < m
  · rw [getElem?_seats (r + 1) hj]
    by_cases hone : j = 1
    · subst hone
      rw [List.getElem?_set_self (by rw [length_shiftRight]; omega)]
      simp only [seat, Option.some.injEq]
      rw [if_neg (by omega), if_pos hr, if_neg one_ne_zero,
        if_neg (by omega)]
      omega
    · rw [List.getElem?_set_ne (Ne.symm hone),
        getElem?_shiftRight (by omega)]
      by_cases hmoved : 2 ≤ j ∧ j ≤ m - 1
      · rw [if_pos hmoved, getElem?_seats r (by omega)]
        simp only [seat, Option.some.injEq]
        split_ifs <;> omega
      · rw [if_neg hmoved, getElem?_seats r hj]
        simp only [seat, Option.some.injEq]
        split_ifs <;> omega
  · rw [List.getElem?_eq_none (by rw [List.length_set, length_shiftRight]; omega),
      List.getElem?_eq_none (by simp [seats]; omega)]

theorem roundsFrom_seats {n m : ℕ} {addBye : Bool} {ahead r : ℕ}
    (hle : r + ahead ≤ m - 1) :
    roundsFrom n m addBye ahead (seats m r) =
      some ((List.range' r ahead).map fun round =>
        roundPairs n m addBye (seats m round)) := by
  induction ahead generalizing r with
  | zero => rfl
  | succ ahead ih =>
      rw [roundsFrom, rotate_seats (by omega)]
      simp only [Option.bind_eq_bind, Option.bind_some]
      rw [ih (by omega)]
      simp [List.range'_succ]

/-! ## Who meets whom -/

theorem mem_roundPairs {n m r : ℕ} {addBye : Bool} (pair : ℕ × ℕ) :
    pair ∈ roundPairs n m addBye (seats m r) ↔
      ∃ i < m / 2, pair = (seat m r i, seat m r (m - 1 - i)) ∧
        ¬(addBye ∧ (pair.1 = n ∨ pair.2 = n)) := by
  have hseat : ∀ j < m, (seats m r).getD j 0 = seat m r j := fun j hj => by
    rw [List.getD_eq_getElem?_getD, getElem?_seats r hj, Option.getD_some]
  simp only [roundPairs, List.mem_filterMap, List.mem_range]
  constructor
  · rintro ⟨i, hi, hpair⟩
    rw [hseat i (by omega), hseat (m - 1 - i) (by omega)] at hpair
    split at hpair
    · cases hpair
    next hkept =>
      obtain rfl := Option.some.inj hpair
      exact ⟨i, hi, rfl, hkept⟩
  · rintro ⟨i, hi, rfl, hkept⟩
    refine ⟨i, hi, ?_⟩
    rw [hseat i (by omega), hseat (m - 1 - i) (by omega), if_neg hkept]

/-- `a` and `b` sit opposite each other in round `r`. -/
def Opposite (m r a b : ℕ) : Prop :=
  ∃ i < m / 2, a = seat m r i ∧ b = seat m r (m - 1 - i)

theorem seat_injective {m r i j : ℕ} (hr : r < m - 1) (hi : i < m)
    (hj : j < m) (heq : seat m r i = seat m r j) : i = j := by
  unfold seat at heq
  split_ifs at heq <;> omega

/-- The three ways in which two participants that are not the pivot sit
opposite each other: neither, one or both have come around. -/
theorem opposite_iff {m r a b : ℕ} (hr : r < m - 1) (ha : 0 < a)
    (hb : 0 < b) (ham : a < m) (hbm : b < m) (hne : a ≠ b)
    (heven : m % 2 = 0) :
    Opposite m r a b ∨ Opposite m r b a ↔
      a + b + 2 * r = m - 1 ∨ a + b + 2 * r = 2 * (m - 1) ∨
        a + b + 2 * r = 3 * (m - 1) := by
  constructor
  · rintro (⟨i, hi, hleft, hright⟩ | ⟨i, hi, hleft, hright⟩) <;>
    · unfold seat at hleft hright
      split_ifs at hleft hright <;> omega
  · intro hsum
    have hplace : ∀ v, 0 < v → v < m →
        ∃ i, 0 < i ∧ i < m ∧ v = seat m r i ∧
          (i = v + r ∨ i + (m - 1) = v + r) := by
      intro v hv hvm
      by_cases hwrap : v + r < m
      · refine ⟨v + r, by omega, hwrap, ?_, Or.inl rfl⟩
        unfold seat
        split_ifs <;> omega
      · refine ⟨v + r - (m - 1), by omega, by omega, ?_, Or.inr (by omega)⟩
        unfold seat
        split_ifs <;> omega
    obtain ⟨i, hi, him, hia, hplacei⟩ := hplace a ha ham
    obtain ⟨j, hj, hjm, hjb, hplacej⟩ := hplace b hb hbm
    have hij : i + j = m - 1 := by omega
    by_cases hhalf : i < m / 2
    · exact Or.inl ⟨i, hhalf, hia, by rw [hjb]; congr 1; omega⟩
    · exact Or.inr ⟨j, by omega, hjb, by rw [hia]; congr 1; omega⟩

theorem opposite_pivot_iff {m r b : ℕ} (hr : r < m - 1) (hb : 0 < b)
    (hbm : b < m) :
    Opposite m r 0 b ∨ Opposite m r b 0 ↔ b + r = m - 1 := by
  constructor
  · rintro (⟨i, hi, hleft, hright⟩ | ⟨i, hi, hleft, hright⟩) <;>
    · unfold seat at hleft hright
      split_ifs at hleft hright <;> omega
  · intro hsum
    refine Or.inl ⟨0, by omega, rfl, ?_⟩
    unfold seat
    split_ifs <;> omega

/-- Everyone meets everyone once. -/
theorem exists_unique_round {m a b : ℕ} (heven : m % 2 = 0) (ham : a < m)
    (hbm : b < m) (hne : a ≠ b) :
    ∃! r, r < m - 1 ∧ (Opposite m r a b ∨ Opposite m r b a) := by
  by_cases ha : a = 0
  · subst ha
    refine ⟨m - 1 - b, ⟨by omega, ?_⟩, ?_⟩
    · exact (opposite_pivot_iff (by omega) (by omega) hbm).2 (by omega)
    · rintro r ⟨hr, hmeet⟩
      have := (opposite_pivot_iff hr (by omega) hbm).1 hmeet
      omega
  by_cases hb : b = 0
  · subst hb
    refine ⟨m - 1 - a, ⟨by omega, ?_⟩, ?_⟩
    · exact ((opposite_pivot_iff (by omega) (by omega) ham).2 (by omega)).symm
    · rintro r ⟨hr, hmeet⟩
      have := (opposite_pivot_iff hr (by omega) ham).1 hmeet.symm
      omega
  have hiff := fun r (hr : r < m - 1) =>
    opposite_iff hr (Nat.pos_of_ne_zero ha) (Nat.pos_of_ne_zero hb) ham hbm
      hne heven
  obtain ⟨r, hr, hsum⟩ : ∃ r < m - 1, a + b + 2 * r = m - 1 ∨
      a + b + 2 * r = 2 * (m - 1) ∨ a + b + 2 * r = 3 * (m - 1) := by
    by_cases hparity : (a + b) % 2 = 0
    · exact ⟨m - 1 - (a + b) / 2, by omega, by omega⟩
    by_cases hless : a + b < m
    · exact ⟨(m - 1 - (a + b)) / 2, by omega, by omega⟩
    · exact ⟨(3 * (m - 1) - (a + b)) / 2, by omega, by omega⟩
  refine ⟨r, ⟨hr, (hiff r hr).2 hsum⟩, ?_⟩
  rintro other ⟨hother, hmeet⟩
  have := (hiff other hother).1 hmeet
  omega

/-! ## The schedule -/

theorem seat_ne_opposite {m r i : ℕ} (hr : r < m - 1) (hi : i < m / 2) :
    seat m r i ≠ seat m r (m - 1 - i) := by
  intro heq
  have := seat_injective hr (by omega) (by omega) heq
  omega

/-- Nobody is in two pairs of a round. -/
theorem nodup_roundPairs {n m r : ℕ} {addBye : Bool} (hr : r < m - 1) :
    ((roundPairs n m addBye (seats m r)).flatMap fun pair =>
      [pair.1, pair.2]).Nodup := by
  refine List.nodup_flatMap.2 ⟨?_, ?_⟩
  · intro pair hpair
    obtain ⟨i, hi, rfl, _⟩ := (mem_roundPairs pair).1 hpair
    simpa using seat_ne_opposite hr hi
  · have hseat : ∀ j < m, (seats m r).getD j 0 = seat m r j := fun j hj => by
      rw [List.getD_eq_getElem?_getD, getElem?_seats r hj, Option.getD_some]
    refine List.pairwise_filterMap.2 (List.pairwise_lt_range.imp_of_mem ?_)
    intro i j hi hj hless left hleft right hright
    rw [List.mem_range] at hi hj
    rw [hseat i (by omega), hseat (m - 1 - i) (by omega)] at hleft
    rw [hseat j (by omega), hseat (m - 1 - j) (by omega)] at hright
    dsimp only at hleft hright
    split at hleft
    · cases hleft
    split at hright
    · cases hright
    obtain rfl := Option.some.inj hleft
    obtain rfl := Option.some.inj hright
    have hapart : ∀ k < m, ∀ l < m, k ≠ l → seat m r k ≠ seat m r l :=
      fun k hk l hl hne heq => hne (seat_injective hr hk hl heq)
    intro who hwho hother
    simp only [List.mem_cons, List.not_mem_nil, or_false] at hwho hother
    rcases hwho with rfl | rfl <;> rcases hother with heq | heq
    · exact hapart i (by omega) j (by omega) (by omega) heq
    · exact hapart i (by omega) (m - 1 - j) (by omega) (by omega) heq
    · exact hapart (m - 1 - i) (by omega) j (by omega) (by omega) heq
    · exact hapart (m - 1 - i) (by omega) (m - 1 - j) (by omega) (by omega) heq

/-- The pairs of a round, up to their order, are the opposite seats. -/
theorem mem_or_mem_iff {n m r a b : ℕ} {addBye : Bool} (ha : a ≠ n)
    (hb : b ≠ n) :
    (a, b) ∈ roundPairs n m addBye (seats m r) ∨
        (b, a) ∈ roundPairs n m addBye (seats m r) ↔
      Opposite m r a b ∨ Opposite m r b a := by
  simp only [mem_roundPairs, Prod.mk.injEq, Opposite]
  simp [ha, hb]

/-- The rounds of the circle method over an even number of places. -/
theorem complete_rounds {n m : ℕ} {addBye : Bool} (heven : m % 2 = 0)
    (hplaces : (addBye = false ∧ m = n ∧ n % 2 = 0) ∨
      (addBye = true ∧ m = n + 1)) :
    Complete n ((List.range' 0 (m - 1)).map fun round =>
      roundPairs n m addBye (seats m round)) := by
  have hround : ∀ pairs ∈ (List.range' 0 (m - 1)).map fun round =>
      roundPairs n m addBye (seats m round), ∃ r < m - 1,
      pairs = roundPairs n m addBye (seats m r) := by
    intro pairs hpairs
    obtain ⟨r, hr, rfl⟩ := List.mem_map.1 hpairs
    rw [List.mem_range'_1] at hr
    exact ⟨r, by omega, rfl⟩
  constructor
  · rw [List.length_map, List.length_range']
    split_ifs <;> omega
  · intro pairs hpairs
    obtain ⟨r, hr, rfl⟩ := hround pairs hpairs
    exact nodup_roundPairs hr
  · intro pairs hpairs pair hpair
    obtain ⟨r, hr, rfl⟩ := hround pairs hpairs
    obtain ⟨i, hi, rfl, hkept⟩ := (mem_roundPairs pair).1 hpair
    have hleft := seat_lt hr (by omega : i < m)
    have hright := seat_lt hr (by omega : m - 1 - i < m)
    rcases hplaces with ⟨_, rfl, _⟩ | ⟨rfl, rfl⟩
    · exact ⟨hleft, hright⟩
    · simp only [true_and, not_or] at hkept
      omega
  · intro a ha b hb hne
    have hlookup : ∀ r pairs,
        ((List.range' 0 (m - 1)).map fun round =>
          roundPairs n m addBye (seats m round))[r]? = some pairs ↔
        r < m - 1 ∧ pairs = roundPairs n m addBye (seats m r) := by
      intro r pairs
      rw [List.getElem?_map]
      by_cases hr : r < m - 1
      · rw [List.getElem?_range' (by omega)]
        simp [hr, eq_comm]
      · rw [List.getElem?_eq_none (by simp; omega)]
        simp [hr]
    obtain ⟨r, ⟨hr, hmeet⟩, hunique⟩ :=
      exists_unique_round heven (by omega : a < m) (by omega : b < m) hne
    refine ⟨r, ⟨_, (hlookup r _).2 ⟨hr, rfl⟩, ?_⟩, ?_⟩
    · exact (mem_or_mem_iff (by omega) (by omega)).2 hmeet
    · rintro other ⟨pairs, hpairs, hmeets⟩
      obtain ⟨hother, rfl⟩ := (hlookup other pairs).1 hpairs
      exact hunique other
        ⟨hother, (mem_or_mem_iff (by omega) (by omega)).1 hmeets⟩

/-- With a bye slot for `2 ^ 32 - 1` participants the array is empty. -/
theorem roundRobinPairs_uint32Max : roundRobinPairs uint32Max = none := by
  obtain ⟨ahead, hahead⟩ : ∃ ahead, (0 + 2 ^ 32 - 1) % 2 ^ 32 = ahead + 1 :=
    ⟨_, rfl⟩
  have hbye : uint32Max % 2 ≠ 0 := by decide
  have hwrap : (uint32Max + 1) % 2 ^ 32 = 0 := by decide
  rw [roundRobinPairs, if_neg (by decide)]
  simp only [hbye, ne_eq, not_false_eq_true, decide_true, if_true, hwrap,
    hahead]
  simp [roundsFrom, rotate]

/-- The schedule is complete unless the bye slot overflows the 32-bit count. -/
theorem roundRobinPairs_complete_iff {n : ℕ} (htwo : 2 ≤ n)
    (hword : n < 2 ^ 32) :
    (∃ rounds, roundRobinPairs n = some rounds ∧ Complete n rounds) ↔
      n ≠ uint32Max := by
  constructor
  · rintro ⟨rounds, hrounds, _⟩ rfl
    rw [roundRobinPairs_uint32Max] at hrounds
    cases hrounds
  · intro hne
    have hmax : uint32Max = 2 ^ 32 - 1 := rfl
    rw [roundRobinPairs, if_neg (by omega)]
    by_cases heven : n % 2 = 0
    · have hcount : (n + 2 ^ 32 - 1) % 2 ^ 32 = n - 1 := by omega
      simp only [heven, ne_eq, not_true_eq_false, decide_false, if_false,
        hcount, ← seats_zero n]
      exact ⟨_, roundsFrom_seats (by omega),
        complete_rounds heven (Or.inl ⟨rfl, rfl, heven⟩)⟩
    · have hplaces : (n + 1) % 2 ^ 32 = n + 1 := by omega
      have hcount : (n + 1 + 2 ^ 32 - 1) % 2 ^ 32 = n + 1 - 1 := by omega
      simp only [heven, ne_eq, not_false_eq_true, decide_true, if_true,
        hplaces, hcount, ← seats_zero (n + 1)]
      exact ⟨_, roundsFrom_seats (by omega),
        complete_rounds (by omega) (Or.inr ⟨rfl, rfl⟩)⟩

/-- Five participants, with a bye in every round. -/
theorem roundRobinPairs_five :
    ∃ rounds, roundRobinPairs 5 = some rounds ∧ Complete 5 rounds :=
  (roundRobinPairs_complete_iff (by decide) (by decide)).2 (by decide)

/-- The array of `2 ^ 32 - 1` participants is read outside its bounds. -/
theorem roundRobinPairs_overflow :
    ¬∃ rounds, roundRobinPairs (2 ^ 32 - 1) = some rounds ∧
      Complete (2 ^ 32 - 1) rounds := by
  rintro ⟨rounds, hrounds, _⟩
  have hnone : roundRobinPairs (2 ^ 32 - 1) = none := roundRobinPairs_uint32Max
  rw [hnone] at hrounds
  cases hrounds

end Citor.ProbeSchedule
