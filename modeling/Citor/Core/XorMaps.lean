import Mathlib.Data.Nat.Bitwise
import Mathlib.Data.Nat.Prime.Basic
import Mathlib.Dynamics.PeriodicPts.Defs
import Mathlib.Order.Interval.Finset.Nat
import Mathlib.Tactic.Ring

/-!
# Iterating a map that respects the exclusive or

Words are numbers and `x ^^^ y` is their sum.  A combination is a word as well:
it stands for the sum of the iterates of a seed at its bits.  Where the
`width`-th iterate is a combination of the earlier ones, far iterates are
reached by squaring combinations.  A seed whose period is the number of nonzero
words runs through all of them.
-/

namespace Citor.XorMaps

/-- The map respects the exclusive or. -/
def Respects (f : ℕ → ℕ) : Prop :=
  ∀ x y, f (x ^^^ y) = f x ^^^ f y

section Maps

variable {f g : ℕ → ℕ}

theorem Respects.map_zero (hf : Respects f) : f 0 = 0 := by
  have hzero := hf 0 0
  rwa [Nat.xor_self, Nat.xor_self] at hzero

theorem Respects.comp (hf : Respects f) (hg : Respects g) :
    Respects fun x => f (g x) := by
  intro x y
  simp only [hg x y, hf (g x) (g y)]

theorem respects_id : Respects fun x => x :=
  fun _ _ => rfl

theorem Respects.xor (hf : Respects f) (hg : Respects g) :
    Respects fun x => f x ^^^ g x := by
  intro x y
  change f (x ^^^ y) ^^^ g (x ^^^ y) = (f x ^^^ g x) ^^^ (f y ^^^ g y)
  rw [hf x y, hg x y]
  ac_rfl

theorem respects_shiftLeft (count : ℕ) : Respects fun x => x <<< count :=
  fun _ _ => Nat.shiftLeft_xor_distrib

theorem respects_shiftRight (count : ℕ) : Respects fun x => x >>> count :=
  fun _ _ => Nat.shiftRight_xor_distrib

theorem respects_mod (width : ℕ) : Respects fun x => x % 2 ^ width :=
  fun _ _ => Nat.xor_mod_two_pow

end Maps

/-! ## Combinations -/

/-- The exclusive or of the columns at the bits of a word. -/
def sumAt : List ℕ → ℕ → ℕ
  | [], _ => 0
  | column :: columns, word =>
      (if word % 2 = 1 then column else 0) ^^^ sumAt columns (word / 2)

theorem xor_halves (word : ℕ) : word % 2 ^^^ (word / 2) <<< 1 = word := by
  apply Nat.eq_of_testBit_eq
  intro bit
  rw [Nat.testBit_xor, Nat.testBit_shiftLeft]
  cases bit with
  | zero => simp
  | succ bit =>
      rw [Nat.testBit_succ, Nat.testBit_succ]
      simp

section Columns

variable {f : ℕ → ℕ} (columns : List ℕ)

theorem sumAt_zero : sumAt columns 0 = 0 := by
  induction columns with
  | nil => rfl
  | cons column columns ih => simp [sumAt, ih]

theorem sumAt_xor (a b : ℕ) :
    sumAt columns (a ^^^ b) = sumAt columns a ^^^ sumAt columns b := by
  induction columns generalizing a b with
  | nil => exact (Nat.xor_self 0).symm
  | cons column columns ih =>
      simp only [sumAt, Nat.xor_div_two, ih, Nat.xor_mod_two_eq_one]
      by_cases ha : a % 2 = 1 <;> by_cases hb : b % 2 = 1
      · calc
          (if ¬(a % 2 = 1 ↔ b % 2 = 1) then column else 0) ^^^
              (sumAt columns (a / 2) ^^^ sumAt columns (b / 2)) =
              (column ^^^ column) ^^^
                (sumAt columns (a / 2) ^^^ sumAt columns (b / 2)) := by
            simp [ha, hb]
          _ = (column ^^^ sumAt columns (a / 2)) ^^^
                (column ^^^ sumAt columns (b / 2)) := by ac_rfl
          _ = _ := by simp [ha, hb]
      all_goals simp [ha, hb, Nat.xor_left_comm, Nat.xor_assoc]

theorem map_sumAt (hf : Respects f) (word : ℕ) :
    f (sumAt columns word) = sumAt (columns.map f) word := by
  induction columns generalizing word with
  | nil => exact hf.map_zero
  | cons column columns ih =>
      rw [sumAt, List.map_cons, sumAt, hf, ih]
      split_ifs
      · rfl
      · rw [hf.map_zero]

theorem sumAt_lt {width : ℕ} (hlt : ∀ column ∈ columns, column < 2 ^ width)
    (word : ℕ) : sumAt columns word < 2 ^ width := by
  induction columns generalizing word with
  | nil => exact Nat.two_pow_pos width
  | cons column columns ih =>
      apply Nat.xor_lt_two_pow
      · split_ifs
        · exact hlt column (by simp)
        · exact Nat.two_pow_pos width
      · exact ih (fun other hmem => hlt other (by simp [hmem])) _

theorem sumAt_zeros (count word : ℕ) :
    sumAt (List.replicate count 0) word = 0 := by
  induction count generalizing word with
  | zero => rfl
  | succ count ih => simp [List.replicate_succ, sumAt, ih]

/-- A word is the exclusive or of its bits. -/
theorem sumAt_powers {width word : ℕ} (scale : ℕ) (hlt : word < 2 ^ width) :
    sumAt ((List.range width).map fun bit => 2 ^ (scale + bit)) word =
      word <<< scale := by
  induction width generalizing scale word with
  | zero =>
      obtain rfl : word = 0 := by simpa using hlt
      simp [sumAt]
  | succ width ih =>
      have hhalf : word / 2 < 2 ^ width := by
        rw [Nat.div_lt_iff_lt_mul (by decide), ← pow_succ]
        exact hlt
      rw [List.range_succ_eq_map, List.map_cons, List.map_map, sumAt]
      have hrest : sumAt ((List.range width).map
          ((fun bit => 2 ^ (scale + bit)) ∘ Nat.succ)) (word / 2) =
          ((word / 2) <<< 1) <<< scale := by
        rw [← Nat.shiftLeft_add, Nat.add_comm, ← ih (scale + 1) hhalf]
        congr 2
        funext bit
        simp [Nat.add_comm, Nat.add_left_comm]
      have hlow : (if word % 2 = 1 then 2 ^ (scale + 0) else 0) =
          (word % 2) <<< scale := by
        rcases Nat.mod_two_eq_zero_or_one word with hbit | hbit <;>
          simp [hbit, Nat.shiftLeft_eq]
      rw [hrest, hlow, ← Nat.shiftLeft_xor_distrib, xor_halves]

end Columns

/-- The exclusive or of `x`, `f x`, ... at the bits of a combination. -/
def act (f : ℕ → ℕ) (width word x : ℕ) : ℕ :=
  sumAt (List.iterate f x width) word

section Combinations

variable {f : ℕ → ℕ}

theorem act_cons (width word x : ℕ) :
    act f (width + 1) word x =
      (if word % 2 = 1 then x else 0) ^^^ act f width (word / 2) (f x) := rfl

theorem act_zero (width x : ℕ) : act f width 0 x = 0 :=
  sumAt_zero _

theorem act_xor (width a b x : ℕ) :
    act f width (a ^^^ b) x = act f width a x ^^^ act f width b x :=
  sumAt_xor _ a b

theorem map_act (hf : Respects f) (width a x : ℕ) :
    f (act f width a x) = act f width a (f x) := by
  have hmap : (List.iterate f x width).map f = List.iterate f (f x) width := by
    induction width generalizing x with
    | zero => rfl
    | succ width ih => simp [List.iterate, ih]
  rw [act, map_sumAt _ hf, hmap, act]

theorem iterate_act (hf : Respects f) (width a count x : ℕ) :
    f^[count] (act f width a x) = act f width a (f^[count] x) := by
  induction count generalizing x with
  | zero => rfl
  | succ count ih =>
      rw [Function.iterate_succ_apply, map_act hf, ih,
        Function.iterate_succ_apply]

/-- The top bit of a combination stands for the last iterate. -/
theorem act_succ (width a x : ℕ) :
    act f (width + 1) a x = act f width (a % 2 ^ width) x ^^^
      (if a / 2 ^ width % 2 = 1 then f^[width] x else 0) := by
  induction width generalizing a x with
  | zero => simp [act, sumAt, List.iterate]
  | succ width ih =>
      have hlow : a % 2 ^ (width + 1) % 2 = a % 2 :=
        Nat.mod_mod_of_dvd a (dvd_pow_self 2 (Nat.succ_ne_zero width))
      have hrest : a % 2 ^ (width + 1) / 2 = a / 2 % 2 ^ width := by
        rw [pow_succ', Nat.mod_mul_right_div_self]
      have htop : a / 2 / 2 ^ width = a / 2 ^ (width + 1) := by
        rw [Nat.div_div_eq_div_mul, ← pow_succ']
      calc
        act f (width + 1 + 1) a x =
            (if a % 2 = 1 then x else 0) ^^^
              act f (width + 1) (a / 2) (f x) := rfl
        _ = (if a % 2 = 1 then x else 0) ^^^
              (act f width (a / 2 % 2 ^ width) (f x) ^^^
                (if a / 2 / 2 ^ width % 2 = 1 then f^[width] (f x)
                  else 0)) := by rw [ih]
        _ = act f (width + 1) (a % 2 ^ (width + 1)) x ^^^
              (if a / 2 ^ (width + 1) % 2 = 1 then f^[width + 1] x
                else 0) := by
          rw [act_cons, hlow, hrest, htop, Function.iterate_succ_apply,
            Nat.xor_assoc]

end Combinations

/-! ## Products of combinations -/

section Products

variable (width relation : ℕ)

/-- A combination one iterate later, by the relation for the last iterate. -/
def timesX (word : ℕ) : ℕ :=
  2 * word % 2 ^ width ^^^
    (if 2 * word / 2 ^ width % 2 = 1 then relation else 0)

/-- The product of two combinations, over the `count` lowest bits of the
first. -/
def times : ℕ → ℕ → ℕ → ℕ
  | 0, _, _ => 0
  | count + 1, a, b =>
      (if a % 2 = 1 then b else 0) ^^^
        times count (a / 2) (timesX width relation b)

/-- The combination of the `exponent`-th iterate. -/
def power : ℕ → ℕ → ℕ
  | 0, _ => 1
  | count + 1, exponent =>
      let half := power count (exponent / 2)
      let squared := times width relation width half half
      if exponent % 2 = 1 then timesX width relation squared else squared

variable {width relation} {f : ℕ → ℕ} {seed : ℕ}
variable (hf : Respects f)
variable (hrelation : f^[width] seed = act f width relation seed)

include hf hrelation

theorem act_timesX (word : ℕ) :
    act f width (timesX width relation word) seed =
      f (act f width word seed) := by
  calc
    act f width (timesX width relation word) seed =
        act f width (2 * word % 2 ^ width) seed ^^^
          (if 2 * word / 2 ^ width % 2 = 1 then f^[width] seed else 0) := by
      rw [timesX, act_xor]
      split_ifs
      · rw [hrelation]
      · rw [act_zero]
    _ = act f (width + 1) (2 * word) seed := (act_succ width _ seed).symm
    _ = act f width word (f seed) := by
      rw [act_cons, Nat.mul_mod_right, if_neg (by decide), Nat.zero_xor,
        Nat.mul_div_cancel_left word (by decide)]
    _ = f (act f width word seed) := (map_act hf width word seed).symm

theorem act_times (count a b : ℕ) :
    act f width (times width relation count a b) seed =
      act f count a (act f width b seed) := by
  induction count generalizing a b with
  | zero => exact act_zero width seed
  | succ count ih =>
      rw [times, act_cons, act_xor, ih, act_timesX hf hrelation]
      split_ifs
      · rfl
      · rw [act_zero]

/-- The seed's iterate, by squaring. -/
theorem act_power (hwidth : 0 < width) (count exponent : ℕ)
    (hlt : exponent < 2 ^ count) :
    act f width (power width relation count exponent) seed =
      f^[exponent] seed := by
  induction count generalizing exponent with
  | zero =>
      obtain rfl : exponent = 0 := by simpa using hlt
      obtain ⟨width, rfl⟩ := Nat.exists_eq_succ_of_ne_zero hwidth.ne'
      rw [power, act_cons, if_pos rfl]
      change seed ^^^ act f width 0 (f seed) = seed
      rw [act_zero, Nat.xor_zero]
  | succ count ih =>
      have hhalf : exponent / 2 < 2 ^ count := by
        rw [Nat.div_lt_iff_lt_mul (by decide), ← pow_succ]
        exact hlt
      have hsquared : act f width (times width relation width
          (power width relation count (exponent / 2))
          (power width relation count (exponent / 2))) seed =
          f^[2 * (exponent / 2)] seed := by
        rw [act_times hf hrelation, ih _ hhalf, ← iterate_act hf, ih _ hhalf,
          ← Function.iterate_add_apply, ← two_mul]
      rw [power]
      split_ifs with hodd
      · have hexponent : exponent = 2 * (exponent / 2) + 1 := by omega
        rw [act_timesX hf hrelation, hsquared, ← Function.iterate_succ_apply' f,
          Nat.succ_eq_add_one, ← hexponent]
      · have hexponent : exponent = 2 * (exponent / 2) := by omega
        rw [hsquared, ← hexponent]

end Products

/-! ## Full periods -/

section Periods

open Function

/-- A period none of whose maximal divisors is one is the least. -/
theorem minimalPeriod_of_primes {α : Type*} {f : α → α} {x : α} {n : ℕ}
    (hperiod : f^[n] x = x)
    (hprimes : ∀ p, p.Prime → p ∣ n → f^[n / p] x ≠ x) :
    minimalPeriod f x = n := by
  have hdvd : minimalPeriod f x ∣ n := IsPeriodicPt.minimalPeriod_dvd hperiod
  obtain ⟨factor, hfactor⟩ := hdvd
  suffices hone : factor = 1 by rw [hfactor, hone, mul_one]
  by_contra hne
  obtain ⟨p, hp, rest, rfl⟩ := Nat.exists_prime_and_dvd hne
  have hn : n = p * (minimalPeriod f x * rest) := by
    rw [hfactor]
    ring
  apply hprimes p hp (Dvd.intro _ hn.symm)
  rw [hn, Nat.mul_div_cancel_left _ hp.pos]
  exact (isPeriodicPt_minimalPeriod f x).mul_const rest

/-- A map that keeps the nonzero words, with a seed that has as many iterates
as there are such words, goes from each of them to each. -/
theorem reaches_of_full {f : ℕ → ℕ} {width seed : ℕ}
    (hkeeps : ∀ x, 0 < x → x < 2 ^ width → 0 < f x ∧ f x < 2 ^ width)
    (hseed : 0 < seed ∧ seed < 2 ^ width)
    (hfull : minimalPeriod f seed = 2 ^ width - 1) {y : ℕ}
    (hpos : 0 < y) (hlt : y < 2 ^ width) : ∃ count, f^[count] seed = y := by
  have hmem : ∀ count, f^[count] seed ∈ Finset.Ico 1 (2 ^ width) := by
    intro count
    rw [Finset.mem_Ico]
    induction count with
    | zero => exact hseed
    | succ count ih =>
        rw [iterate_succ_apply']
        exact hkeeps _ ih.1 ih.2
  have hinj : Set.InjOn (fun count => f^[count] seed)
      (Finset.range (2 ^ width - 1)) := by
    have hinj := iterate_injOn_Iio_minimalPeriod (f := f) (x := seed)
    rw [hfull] at hinj
    simpa using hinj
  have himage : (Finset.range (2 ^ width - 1)).image
      (fun count => f^[count] seed) = Finset.Ico 1 (2 ^ width) := by
    apply Finset.eq_of_subset_of_card_le
    · intro x hx
      obtain ⟨count, -, rfl⟩ := Finset.mem_image.1 hx
      exact hmem count
    · rw [Finset.card_image_of_injOn hinj]
      simp
  have hy : y ∈ Finset.Ico 1 (2 ^ width) := Finset.mem_Ico.2 ⟨hpos, hlt⟩
  rw [← himage, Finset.mem_image] at hy
  obtain ⟨count, -, hcount⟩ := hy
  exact ⟨count, hcount⟩

/-- On a full period every nonzero word recurs behind every other. -/
theorem recurs_of_full {f : ℕ → ℕ} {width seed : ℕ}
    (hkeeps : ∀ x, 0 < x → x < 2 ^ width → 0 < f x ∧ f x < 2 ^ width)
    (hseed : 0 < seed ∧ seed < 2 ^ width)
    (hfull : minimalPeriod f seed = 2 ^ width - 1) {x y : ℕ}
    (hx : 0 < x ∧ x < 2 ^ width) (hy : 0 < y ∧ y < 2 ^ width) :
    ∃ first, ∀ round, f^[first + round * (2 ^ width - 1)] x = y := by
  obtain ⟨i, rfl⟩ := reaches_of_full hkeeps hseed hfull hx.1 hx.2
  obtain ⟨j, rfl⟩ := reaches_of_full hkeeps hseed hfull hy.1 hy.2
  have hperiod : ∀ round, f^[round * (2 ^ width - 1)] seed = seed := by
    intro round
    rw [mul_comm, ← hfull]
    exact (isPeriodicPt_minimalPeriod f seed).mul_const round
  -- far enough on the period to be ahead of the first word
  have hahead : i ≤ j + i * (2 ^ width - 1) := by
    have hone : 1 ≤ 2 ^ width - 1 := by omega
    exact (Nat.le_mul_of_pos_right i hone).trans (Nat.le_add_left _ j)
  refine ⟨j + i * (2 ^ width - 1) - i, fun round => ?_⟩
  calc
    f^[j + i * (2 ^ width - 1) - i + round * (2 ^ width - 1)] (f^[i] seed) =
        f^[j + (i + round) * (2 ^ width - 1)] seed := by
      rw [← iterate_add_apply]
      congr 1
      rw [add_mul]
      omega
    _ = f^[j] seed := by rw [iterate_add_apply, hperiod]

end Periods

end Citor.XorMaps
