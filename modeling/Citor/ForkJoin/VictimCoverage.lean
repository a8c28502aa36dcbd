import Citor.Core.XorMaps
import Citor.ForkJoin.ForkJoinCalls
import Citor.ForkJoin.VictimSelection
import Mathlib.Tactic.NormNum.Prime

/-!
# A drain probes every other slot

The generator respects the exclusive or and has the full period: it runs
through all nonzero words.  So every pair of a roll and a draw comes up again
and again, and a drain that goes on looking for work probes each of the other
slots infinitely often, whatever the pops and steals find in between.
-/

namespace Citor.VictimSelection

open MachineWord XorMaps Function

/-! ## The generator's period -/

section Generator

theorem respects_word : Respects word :=
  respects_mod 64

theorem respects_xorshiftNext : Respects xorshiftNext := by
  have hfirst : Respects fun s => s ^^^ word (s <<< 13) :=
    respects_id.xor (respects_word.comp (respects_shiftLeft 13))
  have hsecond : Respects fun s => s ^^^ (s >>> 7) :=
    respects_id.xor (respects_shiftRight 7)
  have hthird : Respects fun s => s ^^^ word (s <<< 17) :=
    respects_id.xor (respects_word.comp (respects_shiftLeft 17))
  exact hthird.comp (hsecond.comp hfirst)

theorem shiftLeft_ne {s count : ℕ} (hpos : 0 < s) (hcount : 0 < count) :
    s ^^^ word (s <<< count) ≠ 0 := by
  intro hzero
  have hsame : s = word (s <<< count) := Nat.xor_eq_zero_iff.1 hzero
  have hbits : ∀ bit, s.testBit bit = false := by
    intro bit
    induction bit using Nat.strong_induction_on with
    | _ bit ih =>
        rw [hsame, word, Nat.testBit_mod_two_pow, Nat.testBit_shiftLeft]
        by_cases hle : count ≤ bit
        · simp [ih (bit - count) (by omega)]
        · simp [hle]
  exact hpos.ne' (Nat.zero_of_testBit_eq_false hbits)

theorem shiftRight_ne {s count : ℕ} (hpos : 0 < s) (hcount : 0 < count) :
    s ^^^ (s >>> count) ≠ 0 := by
  intro hzero
  have hsame : s = s >>> count := Nat.xor_eq_zero_iff.1 hzero
  have hlt : s >>> count < s := by
    rw [Nat.shiftRight_eq_div_pow]
    exact Nat.div_lt_self hpos (Nat.one_lt_two_pow hcount.ne')
  omega

/-- The generator keeps the nonzero words. -/
theorem xorshiftNext_keeps (s : ℕ) (hpos : 0 < s) (hlt : s < 2 ^ 64) :
    0 < xorshiftNext s ∧ xorshiftNext s < 2 ^ 64 := by
  have hleft : ∀ {s}, s < 2 ^ 64 → ∀ count,
      s ^^^ word (s <<< count) < 2 ^ 64 := fun hlt count =>
    Nat.xor_lt_two_pow hlt (word_lt _)
  have hright : ∀ {s}, s < 2 ^ 64 → s ^^^ (s >>> 7) < 2 ^ 64 := fun hlt =>
    Nat.xor_lt_two_pow hlt (lt_of_le_of_lt (Nat.shiftRight_le _ 7) hlt)
  have hfirst := Nat.pos_of_ne_zero (shiftLeft_ne hpos (by decide : 0 < 13))
  have hsecond := Nat.pos_of_ne_zero
    (shiftRight_ne hfirst (by decide : 0 < 7))
  constructor
  · exact Nat.pos_of_ne_zero (shiftLeft_ne hsecond (by decide : 0 < 17))
  · exact hleft (hright (hleft hlt 13)) 17

/-- The 64th successor of 1, as a combination of the earlier ones. -/
def relation : ℕ := 0x13ed4a358913201

theorem iterate_eq_relation :
    xorshiftNext^[64] 1 = act xorshiftNext 64 relation 1 := by
  decide +kernel

theorem iterate_eq_power {exponent : ℕ} (hlt : exponent < 2 ^ 64) :
    xorshiftNext^[exponent] 1 =
      act xorshiftNext 64 (power 64 relation 64 exponent) 1 :=
  (act_power respects_xorshiftNext iterate_eq_relation (by decide) 64 exponent
    hlt).symm

/-- The primes in the number of nonzero words. -/
def periodPrimes : List ℕ := [3, 5, 17, 257, 641, 65537, 6700417]

theorem mem_periodPrimes {p : ℕ} (hp : p.Prime) (hdvd : p ∣ 2 ^ 64 - 1) :
    p ∈ periodPrimes := by
  have hprod : 2 ^ 64 - 1 = periodPrimes.prod := by decide
  rw [hprod, hp.prime.dvd_prod_iff] at hdvd
  obtain ⟨q, hmem, hdvd⟩ := hdvd
  have hprimes : ∀ q ∈ periodPrimes, q.Prime := by
    simp only [periodPrimes, List.forall_mem_cons, List.not_mem_nil,
      IsEmpty.forall_iff, implies_true, and_true]
    norm_num
  rwa [(Nat.prime_dvd_prime_iff_eq hp (hprimes q hmem)).1 hdvd]

theorem minimalPeriod_xorshiftNext :
    minimalPeriod xorshiftNext 1 = 2 ^ 64 - 1 := by
  have hone : act xorshiftNext 64 (power 64 relation 64 (2 ^ 64 - 1)) 1 = 1 := by
    decide +kernel
  have hprimes : ∀ p ∈ periodPrimes, act xorshiftNext 64
      (power 64 relation 64 ((2 ^ 64 - 1) / p)) 1 ≠ 1 := by
    decide +kernel
  apply minimalPeriod_of_primes
  · rw [iterate_eq_power (by decide), hone]
  · intro p hp hdvd
    have hlt : (2 ^ 64 - 1) / p < 2 ^ 64 :=
      lt_of_le_of_lt (Nat.div_le_self _ p) (by decide)
    rw [iterate_eq_power hlt]
    exact hprimes p (mem_periodPrimes hp hdvd)

/-- Every nonzero word comes up again and again, whatever the generator starts
from. -/
theorem xorshiftNext_recurs {x y : ℕ} (hx : 0 < x ∧ x < 2 ^ 64)
    (hy : 0 < y ∧ y < 2 ^ 64) :
    ∃ first, ∀ round,
      xorshiftNext^[first + round * (2 ^ 64 - 1)] x = y :=
  recurs_of_full xorshiftNext_keeps (by decide) minimalPeriod_xorshiftNext hx hy

end Generator

/-! ## Rolls and draws -/

section Draws

theorem fastRange32_eq {x n : ℕ} (hx : x < 2 ^ 64) (hn : n < 2 ^ 32) :
    fastRange32 x n = (x >>> 32) * n / 2 ^ 32 := by
  have htop : x >>> 32 < 2 ^ 32 := by
    rw [Nat.shiftRight_eq_div_pow]
    omega
  have hprod : (x >>> 32) * n < 2 ^ 64 :=
    lt_of_lt_of_le (Nat.mul_lt_mul'' htop hn) (by decide)
  rw [fastRange32, word_of_lt hprod, Nat.shiftRight_eq_div_pow ((x >>> 32) * n),
    Nat.mod_eq_of_lt]
  omega

theorem fastRange32_lt {x n : ℕ} (hx : x < 2 ^ 64) (hn : n < 2 ^ 32)
    (hpos : 0 < n) : fastRange32 x n < n := by
  have htop : x >>> 32 < 2 ^ 32 := by
    rw [Nat.shiftRight_eq_div_pow]
    omega
  rw [fastRange32_eq hx hn, Nat.div_lt_iff_lt_mul (by decide), mul_comm]
  exact Nat.mul_lt_mul_of_pos_left htop hpos

/-- Every index is drawn, by a nonzero upper half. -/
theorem exists_top {index n : ℕ} (hindex : index < n) (hn : n < 2 ^ 32) :
    ∃ top, 0 < top ∧ top < 2 ^ 32 ∧ top * n / 2 ^ 32 = index := by
  by_cases hzero : index = 0
  · refine ⟨1, by decide, by decide, ?_⟩
    omega
  · have hpos : 0 < n := by omega
    have hlow : (index * 2 ^ 32 + n - 1) / n * n ≤ index * 2 ^ 32 + n - 1 :=
      Nat.div_mul_le_self _ _
    have hhigh : index * 2 ^ 32 + n - 1 <
        (index * 2 ^ 32 + n - 1) / n * n + n := by
      have := Nat.lt_div_mul_add hpos (a := index * 2 ^ 32 + n - 1)
      omega
    refine ⟨(index * 2 ^ 32 + n - 1) / n, ?_, ?_, ?_⟩
    · apply Nat.div_pos
      · omega
      · exact hpos
    · rw [Nat.div_lt_iff_lt_mul hpos]
      have : (index + 1) * 2 ^ 32 ≤ 2 ^ 32 * n := by
        rw [mul_comm]
        exact Nat.mul_le_mul_left _ hindex
      omega
    · omega

/-- Words that end in three zero bits, whose first successors roll 1, 2 and 4,
and whose second successors have an upper half of 0. -/
def rollWords : List ℕ := [0x94be070e8, 0x4709053910, 0x6536ca268]

/-- Words that end in three zero bits, whose first successors roll 0, and whose
second successors have the powers of two in their upper halves. -/
def topWords : List ℕ :=
  [0xca052e9008, 0x8efe07c400, 0x8f4933bc58, 0xc2c5ca4878, 0x88a543ec60,
    0x718047800, 0x4c7440b040, 0x8f320cf800, 0xce956d8418, 0x87de81ec20,
    0x86746b3048, 0x1c6011c00, 0x38c023800, 0x8f5962a048, 0x4aa40ea010,
    0x4431670c78, 0x4ec139cc28, 0xebf419448, 0x48e046f050, 0x861a007820,
    0x4ff8468840, 0x6b665848, 0x4e345db400, 0xc550a7f410, 0x8b2941d060,
    0x884166d048, 0xccd5609058, 0x45fd6c1078, 0xf1d67b468, 0x4ba40ab010,
    0x46316f2c78, 0x80c4071c20]

/-- Any roll comes up in front of any upper half, behind a word that ends in
three zero bits. -/
theorem exists_word {roll top : ℕ} (hroll : roll < 8) (htop : top < 2 ^ 32) :
    ∃ x < 2 ^ 64, x % 8 = 0 ∧ xorshiftNext x % 8 = roll ∧
      xorshiftNext (xorshiftNext x) >>> 32 = top := by
  have hlow : Respects fun x => x % 8 := respects_mod 3
  have hmiddle : Respects fun x => xorshiftNext x % 8 :=
    hlow.comp respects_xorshiftNext
  have hhigh : Respects fun x => xorshiftNext (xorshiftNext x) >>> 32 :=
    (respects_shiftRight 32).comp
      (respects_xorshiftNext.comp respects_xorshiftNext)
  have hread : ∀ {read : ℕ → ℕ}, Respects read →
      read (sumAt rollWords roll ^^^ sumAt topWords top) =
        sumAt (rollWords.map read) roll ^^^ sumAt (topWords.map read) top := by
    intro read hrespects
    rw [hrespects, map_sumAt _ hrespects, map_sumAt _ hrespects]
  have hbits : ∀ {width word : ℕ}, word < 2 ^ width →
      sumAt ((List.range width).map fun bit => 2 ^ (0 + bit)) word = word :=
    fun hlt => sumAt_powers 0 hlt
  refine ⟨sumAt rollWords roll ^^^ sumAt topWords top, ?_, ?_, ?_, ?_⟩
  · apply Nat.xor_lt_two_pow
    · exact sumAt_lt _ (by decide) roll
    · exact sumAt_lt _ (by decide) top
  · have hroll : rollWords.map (fun x => x % 8) = List.replicate 3 0 := by
      decide +kernel
    have htop : topWords.map (fun x => x % 8) = List.replicate 32 0 := by
      decide +kernel
    rw [hread hlow, hroll, htop, sumAt_zeros, sumAt_zeros, Nat.xor_self]
  · have hrolls : rollWords.map (fun x => xorshiftNext x % 8) =
        (List.range 3).map fun bit => 2 ^ (0 + bit) := by
      decide +kernel
    have htops : topWords.map (fun x => xorshiftNext x % 8) =
        List.replicate 32 0 := by
      decide +kernel
    rw [hread hmiddle, hrolls, htops, sumAt_zeros, Nat.xor_zero]
    exact hbits hroll
  · have hrolls : rollWords.map
        (fun x => xorshiftNext (xorshiftNext x) >>> 32) =
          List.replicate 3 0 := by
      decide +kernel
    have htops : topWords.map
        (fun x => xorshiftNext (xorshiftNext x) >>> 32) =
          (List.range 32).map fun bit => 2 ^ (0 + bit) := by
      decide +kernel
    rw [hread hhigh, hrolls, htops, sumAt_zeros, Nat.zero_xor]
    exact hbits htop

end Draws

/-! ## The victim of a call -/

section Victims

variable {pool : Pool} {slot v : ℕ} {preferSameCcd : Bool}

theorem mem_allVictims :
    v ∈ allVictims pool slot ↔ v < pool.participants ∧ v ≠ slot := by
  simp [allVictims]

theorem mem_sameCcdVictims : v ∈ sameCcdVictims pool slot ↔
    v ∈ allVictims pool slot ∧ onSelfCcd pool slot v = true :=
  List.mem_filter

theorem mem_crossCcdVictims : v ∈ crossCcdVictims pool slot ↔
    v ∈ allVictims pool slot ∧ onSelfCcd pool slot v = false := by
  simp [crossCcdVictims]

theorem length_allVictims : (allVictims pool slot).length < 2 ^ 32 :=
  calc
    (allVictims pool slot).length ≤ (List.range pool.participants).length :=
      List.length_filter_le _ _
    _ = pool.participants := List.length_range
    _ < 2 ^ 32 := pool.participants_lt

/-- A draw takes a slot of the list. -/
theorem mem_of_pick {row : List ℕ} {x : ℕ} (hpick : pick row x = some v) :
    v ∈ row :=
  List.mem_of_getElem? hpick

theorem mem_of_trySteal {rng : ℕ}
    (hprobe : (trySteal pool slot preferSameCcd rng).2 = some v) :
    v ∈ allVictims pool slot := by
  unfold trySteal at hprobe
  dsimp only at hprobe
  split_ifs at hprobe
  · exact (mem_sameCcdVictims.1 (mem_of_pick hprobe)).1
  · exact (mem_crossCcdVictims.1 (mem_of_pick hprobe)).1
  · exact mem_of_pick hprobe

/-- The drawn slot is one that the fork-join machine lets the drain probe. -/
theorem probeVictim_of_trySteal {Exn : Type} {state : ForkJoin.State Exn}
    {call rng : ℕ} {role : ForkJoin.Role} {lastVictim : Option ℕ}
    {rest : List (ForkJoin.Frame Exn)}
    (hframes : state.frames slot = .drain call role .random lastVictim :: rest)
    (hprobe : (trySteal pool slot preferSameCcd rng).2 = some v) :
    (ForkJoin.probeVictim pool.participants state slot v false).isSome := by
  have hother := mem_allVictims.1 (mem_of_trySteal hprobe)
  simp [ForkJoin.probeVictim, hframes, hother]

/-- Some upper half draws the given slot of a list. -/
theorem exists_pick {row : List ℕ} (hmem : v ∈ row)
    (hlength : row.length < 2 ^ 32) :
    ∃ top, 0 < top ∧ top < 2 ^ 32 ∧
      ∀ x < 2 ^ 64, x >>> 32 = top → pick row x = some v := by
  obtain ⟨index, hindex, hget⟩ := List.getElem_of_mem hmem
  obtain ⟨top, hpos, htop, hdraw⟩ := exists_top hindex hlength
  refine ⟨top, hpos, htop, fun x hx hupper => ?_⟩
  rw [pick, fastRange32_eq hx hlength, hupper, hdraw,
    List.getElem?_eq_getElem hindex, hget]

/-- A draw from a list that is not empty is in bounds. -/
theorem pick_ne_none {row : List ℕ} {x : ℕ} (hrow : row ≠ [])
    (hlength : row.length < 2 ^ 32) (hx : x < 2 ^ 64) : pick row x ≠ none := by
  have hindex : fastRange32 x row.length < row.length :=
    fastRange32_lt hx hlength (List.length_pos_of_ne_nil hrow)
  rw [pick, List.getElem?_eq_getElem hindex]
  exact Option.some_ne_none _

end Victims

/-! ## The calls of a drain -/

section Calls

variable {pool : Pool} {slot v : ℕ} {preferSameCcd : Bool}

/-- The generator behind a call of `trySteal`. -/
def behindCall (pool : Pool) (slot : ℕ) (preferSameCcd : Bool) (rng : ℕ) : ℕ :=
  (trySteal pool slot preferSameCcd rng).1

theorem length_sameCcdVictims : (sameCcdVictims pool slot).length < 2 ^ 32 :=
  lt_of_le_of_lt (List.length_filter_le _ _) length_allVictims

theorem length_crossCcdVictims : (crossCcdVictims pool slot).length < 2 ^ 32 :=
  lt_of_le_of_lt (List.length_filter_le _ _) length_allVictims

theorem and_seven (x : ℕ) : x &&& 7 = x % 8 :=
  Nat.and_two_pow_sub_one_eq_mod x 3

/-- Calls that step by one or two never jump over a word at which they step by
one. -/
theorem lands {f g : ℕ → ℕ} (test : ℕ → Prop)
    (hone : ∀ x, test (f x) → g x = f x)
    (htwo : ∀ x, ¬ test (f x) → g x = f (f x)) :
    ∀ (count x : ℕ), test (f^[count] x) →
      ∃ calls, g^[calls] x = f^[count] x := by
  intro count
  induction count using Nat.strong_induction_on with
  | _ count ih =>
      intro x htest
      cases count with
      | zero => exact ⟨0, rfl⟩
      | succ count =>
          by_cases hnext : test (f x)
          · obtain ⟨calls, hcalls⟩ := ih count (by omega) (f x) htest
            exact ⟨calls + 1, by
              rw [iterate_succ_apply, hone x hnext, hcalls,
                iterate_succ_apply]⟩
          · cases count with
            | zero => exact absurd htest hnext
            | succ count =>
                obtain ⟨calls, hcalls⟩ := ih count (by omega) (f (f x)) htest
                exact ⟨calls + 1, by
                  rw [iterate_succ_apply, htwo x hnext, hcalls,
                    iterate_succ_apply, iterate_succ_apply]⟩

/-- Calls that take two words each reach every word. -/
theorem reaches_by_pairs {x y : ℕ} (hx : 0 < x ∧ x < 2 ^ 64)
    (hy : 0 < y ∧ y < 2 ^ 64) :
    ∃ calls, (xorshiftNext^[2])^[calls] x = y := by
  obtain ⟨first, hfirst⟩ := xorshiftNext_recurs hx hy
  -- `first` more rounds of odd length make an even number of steps
  refine ⟨first * 2 ^ 63, ?_⟩
  rw [← iterate_mul]
  have heven : 2 * (first * 2 ^ 63) = first + first * (2 ^ 64 - 1) := by omega
  rw [heven, hfirst first]

/-- A word that rolls and then draws from a list as wanted. -/
theorem exists_rolled {row : List ℕ} {roll : ℕ} (hmem : v ∈ row)
    (hlength : row.length < 2 ^ 32) (hroll : roll < 8) :
    ∃ x, (0 < x ∧ x < 2 ^ 64) ∧ x % 8 = 0 ∧ xorshiftNext x % 8 = roll ∧
      pick row (xorshiftNext (xorshiftNext x)) = some v := by
  obtain ⟨top, hpos, htop, hdraw⟩ := exists_pick hmem hlength
  obtain ⟨x, hlt, hlow, hmiddle, hupper⟩ := exists_word hroll htop
  have hx : 0 < x := by
    apply Nat.pos_of_ne_zero
    rintro rfl
    rw [respects_xorshiftNext.map_zero, respects_xorshiftNext.map_zero] at hupper
    exact hpos.ne hupper
  have hnext := xorshiftNext_keeps x hx hlt
  refine ⟨x, ⟨hx, hlt⟩, hlow, hmiddle, ?_⟩
  exact hdraw _ (xorshiftNext_keeps _ hnext.1 hnext.2).2 hupper

variable (hv : v < pool.participants) (hne : v ≠ slot)
variable (hmany : ¬ pool.participants ≤ 1)

include hv hne hmany

/-- Without a preference every call draws once. -/
theorem exists_drawn_uniform {rng : ℕ} (hrng : 0 < rng ∧ rng < 2 ^ 64) :
    ∃ calls, (trySteal pool slot false
      ((behindCall pool slot false)^[calls] rng)).2 = some v := by
  have hcall : ∀ rng, trySteal pool slot false rng =
      (xorshiftNext rng, pick (allVictims pool slot) (xorshiftNext rng)) := by
    intro rng
    simp [trySteal, hmany]
  have hbehind : behindCall pool slot false = xorshiftNext := by
    funext rng
    rw [behindCall, hcall]
  obtain ⟨x, hx, -, -, hdraw⟩ := exists_rolled
    (mem_allVictims.2 ⟨hv, hne⟩) length_allVictims (by decide : 0 < 8)
  obtain ⟨first, hfirst⟩ :=
    xorshiftNext_recurs hrng (xorshiftNext_keeps x hx.1 hx.2)
  refine ⟨first, ?_⟩
  have hreach : xorshiftNext^[first] rng = xorshiftNext x := by
    simpa using hfirst 0
  rw [hbehind, hcall, hreach]
  exact hdraw

/-- With a preference and with slots on other CCDs every call rolls and
draws. -/
theorem exists_drawn_across {rng : ℕ} (hrng : 0 < rng ∧ rng < 2 ^ 64)
    (hcross : crossCcdVictims pool slot ≠ []) :
    ∃ calls, (trySteal pool slot true
      ((behindCall pool slot true)^[calls] rng)).2 = some v := by
  have hcall : ∀ rng, trySteal pool slot true rng =
      (xorshiftNext (xorshiftNext rng),
        pick (if ¬ xorshiftNext rng % 8 = 0 ∧ sameCcdVictims pool slot ≠ []
            then sameCcdVictims pool slot else crossCcdVictims pool slot)
          (xorshiftNext (xorshiftNext rng))) := by
    intro rng
    have hlength := List.length_pos_of_ne_nil hcross
    simp only [trySteal, hmany, if_false, if_true, and_seven, hlength]
    split_ifs <;> rfl
  have hbehind : behindCall pool slot true = xorshiftNext^[2] := by
    funext rng
    rw [behindCall, hcall]
    rfl
  have hreach : ∀ {row : List ℕ} {roll : ℕ}, v ∈ row → row.length < 2 ^ 32 →
      roll < 8 → (if ¬ roll = 0 ∧ sameCcdVictims pool slot ≠ []
        then sameCcdVictims pool slot else crossCcdVictims pool slot) = row →
      ∃ calls, (trySteal pool slot true
        ((behindCall pool slot true)^[calls] rng)).2 = some v := by
    intro row roll hmem hlength hroll hrow
    obtain ⟨x, hx, -, hrolls, hdraw⟩ := exists_rolled hmem hlength hroll
    obtain ⟨calls, hcalls⟩ := reaches_by_pairs hrng hx
    refine ⟨calls, ?_⟩
    rw [hbehind, hcalls, hcall, hrolls, hrow]
    exact hdraw
  have hother := mem_allVictims.2 ⟨hv, hne⟩
  cases hccd : onSelfCcd pool slot v with
  | true =>
      have hmem := mem_sameCcdVictims.2 ⟨hother, hccd⟩
      apply hreach hmem length_sameCcdVictims (by decide : 1 < 8)
      rw [if_pos ⟨by decide, List.ne_nil_of_mem hmem⟩]
  | false =>
      have hmem := mem_crossCcdVictims.2 ⟨hother, hccd⟩
      apply hreach hmem length_crossCcdVictims (by decide : 0 < 8)
      rw [if_neg (by simp)]

/-- With a preference and one CCD a call that rolls across draws nothing. -/
theorem exists_drawn_alone {rng : ℕ} (hrng : 0 < rng ∧ rng < 2 ^ 64)
    (hcross : crossCcdVictims pool slot = []) :
    ∃ calls, (trySteal pool slot true
      ((behindCall pool slot true)^[calls] rng)).2 = some v := by
  have hmem : v ∈ sameCcdVictims pool slot := by
    apply mem_sameCcdVictims.2
    refine ⟨mem_allVictims.2 ⟨hv, hne⟩, ?_⟩
    by_contra hccd
    have hacross := mem_crossCcdVictims.2
      ⟨mem_allVictims.2 ⟨hv, hne⟩, Bool.eq_false_of_not_eq_true hccd⟩
    rw [hcross] at hacross
    simp at hacross
  have hsame := List.ne_nil_of_mem hmem
  have hacross : ∀ rng, xorshiftNext rng % 8 = 0 →
      trySteal pool slot true rng = (xorshiftNext rng, none) := by
    intro rng hroll
    simp [trySteal, hmany, and_seven, hroll, hcross]
  have hhere : ∀ rng, ¬ xorshiftNext rng % 8 = 0 →
      trySteal pool slot true rng = (xorshiftNext (xorshiftNext rng),
        pick (sameCcdVictims pool slot)
          (xorshiftNext (xorshiftNext rng))) := by
    intro rng hroll
    simp [trySteal, hmany, and_seven, hroll, hsame]
  obtain ⟨x, hx, hlow, hroll, hdraw⟩ :=
    exists_rolled hmem length_sameCcdVictims (by decide : 1 < 8)
  obtain ⟨first, hfirst⟩ := xorshiftNext_recurs hrng hx
  have hreach : xorshiftNext^[first] rng = x := by simpa using hfirst 0
  -- no call jumps over `x`, which would roll across
  obtain ⟨calls, hcalls⟩ := lands (f := xorshiftNext)
    (g := behindCall pool slot true) (fun x => x % 8 = 0)
    (fun rng hroll => congrArg Prod.fst (hacross rng hroll))
    (fun rng hroll => congrArg Prod.fst (hhere rng hroll)) first rng
    (by rw [hreach]; exact hlow)
  refine ⟨calls, ?_⟩
  rw [hcalls, hreach, hhere x (by rw [hroll]; decide)]
  exact hdraw

/-- Calls that go on draw every other slot. -/
theorem exists_drawn {rng : ℕ} (hrng : 0 < rng ∧ rng < 2 ^ 64) :
    ∃ calls, (trySteal pool slot preferSameCcd
      ((behindCall pool slot preferSameCcd)^[calls] rng)).2 = some v := by
  cases preferSameCcd with
  | false => exact exists_drawn_uniform hv hne hmany hrng
  | true =>
      by_cases hcross : crossCcdVictims pool slot = []
      · exact exists_drawn_alone hv hne hmany hrng hcross
      · exact exists_drawn_across hv hne hmany hrng hcross

end Calls

/-! ## The rounds of a drain -/

section Rounds

variable {pool : Pool} {slot : ℕ} {preferSameCcd : Bool}

/-- The generator of a drain is at a nonzero word. -/
theorem xorshiftSeed_keeps : 0 < xorshiftSeed pool.self slot ∧
    xorshiftSeed pool.self slot < 2 ^ 64 := by
  have hlt : 0x9E3779B97F4A7C15 ^^^ word (slot * 0xBF58476D1CE4E5B9) ^^^
      pool.self < 2 ^ 64 :=
    Nat.xor_lt_two_pow (Nat.xor_lt_two_pow (by decide) (word_lt _))
      pool.self_lt
  unfold xorshiftSeed
  dsimp only
  split_ifs with hzero
  · exact ⟨by decide, by decide⟩
  · exact ⟨Nat.pos_of_ne_zero hzero, hlt⟩

theorem behindCall_keeps {rng : ℕ} (hrng : 0 < rng ∧ rng < 2 ^ 64) :
    0 < behindCall pool slot preferSameCcd rng ∧
      behindCall pool slot preferSameCcd rng < 2 ^ 64 := by
  have hnext := xorshiftNext_keeps rng hrng.1 hrng.2
  have hsecond := xorshiftNext_keeps _ hnext.1 hnext.2
  unfold behindCall trySteal
  dsimp only
  split_ifs
  · exact hrng
  · exact hsecond
  · exact hsecond
  · exact hnext
  · exact hnext

variable (rounds : ℕ → Round)

theorem next_rng (drain : Drain) (round : Round) :
    (drain.next pool slot preferSameCcd round).rng =
      if drain.seeks pool slot round then
        behindCall pool slot preferSameCcd drain.rng
      else drain.rng := by
  unfold Drain.next
  split_ifs <;> rfl

theorem rng_keeps (count : ℕ) :
    0 < (drainAt pool slot preferSameCcd rounds count).rng ∧
      (drainAt pool slot preferSameCcd rounds count).rng < 2 ^ 64 := by
  induction count with
  | zero => exact xorshiftSeed_keeps
  | succ count ih =>
      rw [drainAt, next_rng]
      split_ifs
      · exact behindCall_keeps ih
      · exact ih

/-- The hint names another slot, if any. -/
theorem hinted_slot {drain : Drain} (hhint : drain.hinted pool slot = true) :
    drain.lastVictim ∈ allVictims pool slot := by
  rw [mem_allVictims]
  simpa [Drain.hinted] using hhint

/-- Round `count` gets to `trySteal`. -/
def SeeksAt (pool : Pool) (slot : ℕ) (preferSameCcd : Bool)
    (rounds : ℕ → Round) (count : ℕ) : Prop :=
  (drainAt pool slot preferSameCcd rounds count).seeks pool slot
    (rounds count) = true

/-- The slot drawn in round `count`. -/
def drawnAt (pool : Pool) (slot : ℕ) (preferSameCcd : Bool)
    (rounds : ℕ → Round) (count : ℕ) : Option ℕ :=
  (drainAt pool slot preferSameCcd rounds count).draws pool slot preferSameCcd
    (rounds count)

/-- What the probes of a drain should be. -/
structure ProbesSound (pool : Pool) (slot : ℕ) (preferSameCcd : Bool)
    (rounds : ℕ → Round) : Prop where
  /-- Only other slots are probed. -/
  others : ∀ count, ∀ v ∈ (drainAt pool slot preferSameCcd rounds count).probes
    pool slot preferSameCcd (rounds count), v < pool.participants ∧ v ≠ slot
  /-- A draw is in bounds, from each of the lists: a round that seeks probes a
  slot, unless it rolls across with no slot there. -/
  drawn : ∀ count, SeeksAt pool slot preferSameCcd rounds count →
    drawnAt pool slot preferSameCcd rounds count = none →
    preferSameCcd = true ∧ crossCcdVictims pool slot = [] ∧
      xorshiftNext (drainAt pool slot preferSameCcd rounds count).rng &&& 7 = 0
  /-- A drain that goes on looking probes every other slot again and again. -/
  covers : (∀ count, ∃ later ≥ count,
      SeeksAt pool slot preferSameCcd rounds later) →
    ∀ v < pool.participants, v ≠ slot → ∀ count, ∃ later ≥ count,
      drawnAt pool slot preferSameCcd rounds later = some v

theorem others_probed (count : ℕ) {v : ℕ}
    (hmem : v ∈ (drainAt pool slot preferSameCcd rounds count).probes
      pool slot preferSameCcd (rounds count)) :
    v ∈ allVictims pool slot := by
  rw [Drain.probes, List.mem_append, Option.mem_toList] at hmem
  cases hmem with
  | inl hhinted =>
      split_ifs at hhinted with hhint
      · rw [List.mem_singleton.1 hhinted]
        simp only [Bool.and_eq_true] at hhint
        exact hinted_slot hhint.2
      · simp at hhinted
  | inr hdrawn =>
      unfold Drain.draws at hdrawn
      split_ifs at hdrawn
      exact mem_of_trySteal hdrawn

theorem allVictims_ne_nil (hmany : ¬ pool.participants ≤ 1) :
    allVictims pool slot ≠ [] := by
  by_cases hzero : slot = 0
  · exact List.ne_nil_of_mem
      (mem_allVictims.2 ⟨by omega, (by omega : 1 ≠ slot)⟩)
  · exact List.ne_nil_of_mem
      (mem_allVictims.2 ⟨by omega, (Ne.symm hzero : 0 ≠ slot)⟩)

/-- Every other slot is on one of the two lists. -/
theorem sameCcdVictims_ne_nil (hmany : ¬ pool.participants ≤ 1)
    (hcross : crossCcdVictims pool slot = []) :
    sameCcdVictims pool slot ≠ [] := by
  obtain ⟨v, hmem⟩ := List.exists_mem_of_ne_nil _ (allVictims_ne_nil hmany)
  cases hccd : onSelfCcd pool slot v with
  | true => exact List.ne_nil_of_mem (mem_sameCcdVictims.2 ⟨hmem, hccd⟩)
  | false =>
      have hacross := mem_crossCcdVictims.2 ⟨hmem, hccd⟩
      simp [hcross] at hacross

/-- A call with another slot to choose from probes one, in bounds, unless it
rolls across in vain. -/
theorem victim_of_trySteal {rng : ℕ} (hmany : ¬ pool.participants ≤ 1)
    (hrng : 0 < rng ∧ rng < 2 ^ 64)
    (hnone : (trySteal pool slot preferSameCcd rng).2 = none) :
    preferSameCcd = true ∧ crossCcdVictims pool slot = [] ∧
      xorshiftNext rng &&& 7 = 0 := by
  have hnext := xorshiftNext_keeps rng hrng.1 hrng.2
  have hsecond := (xorshiftNext_keeps _ hnext.1 hnext.2).2
  unfold trySteal at hnone
  dsimp only at hnone
  split_ifs at hnone with hprefer hsame hcross
  · exact absurd hnone (pick_ne_none hsame.2 length_sameCcdVictims hsecond)
  · exact absurd hnone (pick_ne_none (List.ne_nil_of_length_pos hcross)
      length_crossCcdVictims hsecond)
  · have hempty : crossCcdVictims pool slot = [] := by simpa using hcross
    refine ⟨hprefer, hempty, ?_⟩
    by_contra hhere
    exact hsame ⟨hhere, sameCcdVictims_ne_nil hmany hempty⟩
  · exact absurd hnone
      (pick_ne_none (allVictims_ne_nil hmany) length_allVictims hnext.2)

/-- Between two calls the generator stands still. -/
theorem rng_of_quiet {first : ℕ} (gap : ℕ)
    (hquiet : ∀ step < gap,
      ¬ SeeksAt pool slot preferSameCcd rounds (first + step)) :
    (drainAt pool slot preferSameCcd rounds (first + gap)).rng =
      (drainAt pool slot preferSameCcd rounds first).rng := by
  induction gap with
  | zero => rfl
  | succ gap ih =>
      have hlast := hquiet gap (by omega)
      rw [SeeksAt] at hlast
      rw [← Nat.add_assoc, drainAt, next_rng, if_neg hlast]
      exact ih fun step hstep => hquiet step (by omega)

/-- The next call behind a round. -/
theorem exists_next_call
    (hgoes : ∀ count, ∃ later ≥ count,
      SeeksAt pool slot preferSameCcd rounds later) (first : ℕ) :
    ∃ later ≥ first, SeeksAt pool slot preferSameCcd rounds later ∧
      (drainAt pool slot preferSameCcd rounds later).rng =
        (drainAt pool slot preferSameCcd rounds first).rng := by
  classical
  have hexists : ∃ gap, SeeksAt pool slot preferSameCcd rounds (first + gap) := by
    obtain ⟨later, hle, hseeks⟩ := hgoes first
    exact ⟨later - first, by rwa [Nat.add_sub_cancel' hle]⟩
  refine ⟨first + Nat.find hexists, Nat.le_add_right _ _, Nat.find_spec hexists,
    ?_⟩
  exact rng_of_quiet rounds _ fun step hstep => Nat.find_min hexists hstep

/-- The calls behind a round, one after another. -/
theorem exists_call
    (hgoes : ∀ count, ∃ later ≥ count,
      SeeksAt pool slot preferSameCcd rounds later) (first calls : ℕ) :
    ∃ later ≥ first, SeeksAt pool slot preferSameCcd rounds later ∧
      (drainAt pool slot preferSameCcd rounds later).rng =
        (behindCall pool slot preferSameCcd)^[calls]
          (drainAt pool slot preferSameCcd rounds first).rng := by
  induction calls with
  | zero => exact exists_next_call rounds hgoes first
  | succ calls ih =>
      obtain ⟨now, hle, hseeks, hrng⟩ := ih
      obtain ⟨later, hlater, hnext, hsame⟩ :=
        exists_next_call rounds hgoes (now + 1)
      refine ⟨later, by omega, hnext, ?_⟩
      rw [SeeksAt] at hseeks
      rw [hsame, drainAt, next_rng, if_pos hseeks, hrng, iterate_succ_apply']

/-- The victims of every drain, of any slot of any pool, with and without the
preference for the same CCD. -/
theorem probesSound (hmany : 1 < pool.participants) :
    ProbesSound pool slot preferSameCcd rounds where
  others count v hmem := mem_allVictims.1 (others_probed rounds count hmem)
  drawn count hseeks hnone := by
    rw [SeeksAt] at hseeks
    rw [drawnAt, Drain.draws, if_pos hseeks] at hnone
    exact victim_of_trySteal hmany.not_ge (rng_keeps rounds count) hnone
  covers hgoes v hv hne count := by
    obtain ⟨calls, hdrawn⟩ := exists_drawn hv hne hmany.not_ge
      (rng_keeps rounds count)
    obtain ⟨later, hle, hseeks, hrng⟩ := exists_call rounds hgoes count calls
    refine ⟨later, hle, ?_⟩
    rw [SeeksAt] at hseeks
    rw [drawnAt, Drain.draws, if_pos hseeks, hrng]
    exact hdrawn

end Rounds

/-- Four slots on two CCDs. -/
def twoCcds : Pool where
  self := 0x7f3c00a01000
  participants := 4
  ccdOfSlot := fun slot => slot / 2
  self_lt := by norm_num
  participants_lt := by norm_num

/-- Nothing is ever found. -/
def nothing (_ : ℕ) : Round := ⟨false, false, false⟩

/-- The last slot looks for work in vain, and looks at every other slot without
end. -/
theorem probesSound_twoCcds :
    ProbesSound twoCcds 3 true nothing ∧
      ∀ count, SeeksAt twoCcds 3 true nothing count := by
  refine ⟨probesSound nothing (by decide), fun count => ?_⟩
  simp [SeeksAt, Drain.seeks, nothing]

end Citor.VictimSelection
