import Citor.Core.MachineWord

/-!
# Slot ranges

`ScanState::slotRange`: the rows of a slot, uniform over all slots or, with a
CCD map, uniform within the slots of the producer's CCD and within the others.
The two groups are laid out one behind the other whatever their slots are.
-/

namespace Citor.SlotRanges

open Citor.MachineWord

/-- A product over a divisor, kept to 64 bits. -/
def mulDiv64 (a b c : ℕ) : ℕ :=
  word (a * b / c)

/-- The fields of a scan state that `slotRange` reads. -/
structure ScanRanges where
  participants : ℕ
  n : ℕ
  ccdOfSlot : Option (ℕ → ℕ)
  producerCcd : ℕ
  slotsOnProducerCcd : ℕ
  asymmetricNum : ℕ

/-- The slot's position among the slots of its own kind. -/
def indexInGroup (ccdOfSlot : ℕ → ℕ) (producerCcd slot : ℕ) : ℕ :=
  (List.range slot).countP fun s =>
    decide (ccdOfSlot s = producerCcd) = decide (ccdOfSlot slot = producerCcd)

def ScanRanges.slotRange (state : ScanRanges) (slot : ℕ) : ℕ × ℕ :=
  match state.ccdOfSlot with
  | none =>
    (mulDiv64 state.n slot state.participants,
      mulDiv64 state.n (slot + 1) state.participants)
  | some ccdOfSlot =>
    let producerVolume := mulDiv64 state.n state.asymmetricNum 16
    let numProducer := state.slotsOnProducerCcd
    let numCross := state.participants - state.slotsOnProducerCcd
    let index := indexInGroup ccdOfSlot state.producerCcd slot
    if ccdOfSlot slot = state.producerCcd ∧ 0 < numProducer then
      (mulDiv64 producerVolume index numProducer,
        mulDiv64 producerVolume (index + 1) numProducer)
    else if 0 < numCross then
      let crossVolume := state.n - producerVolume
      (producerVolume + mulDiv64 crossVolume index numCross,
        producerVolume + mulDiv64 crossVolume (index + 1) numCross)
    else (0, 0)

/-- Slot order is data order. -/
structure LeftToRight (state : ScanRanges) : Prop where
  first : (state.slotRange 0).1 = 0
  next : ∀ slot, slot + 1 < state.participants →
    (state.slotRange slot).2 = (state.slotRange (slot + 1)).1
  last : (state.slotRange (state.participants - 1)).2 = state.n

/-- The slots of one CCD are the first slots. -/
def ProducerFirst (ccdOfSlot : ℕ → ℕ) (producerCcd participants : ℕ) :
    Prop :=
  ∃ count, ∀ slot < participants,
    ccdOfSlot slot = producerCcd ↔ slot < count

section MulDiv

@[simp] theorem mulDiv64_zero_left (b c : ℕ) : mulDiv64 0 b c = 0 := by
  simp [mulDiv64, word]

@[simp] theorem mulDiv64_zero_right (a c : ℕ) : mulDiv64 a 0 c = 0 := by
  simp [mulDiv64, word]

theorem mulDiv64_self {a c : ℕ} (ha : a < 2 ^ 64) (hc : 0 < c) :
    mulDiv64 a c c = a := by
  rw [mulDiv64, Nat.mul_div_cancel _ hc, word_of_lt ha]

theorem mulDiv64_le {a b c : ℕ} (hbc : b ≤ c) : mulDiv64 a b c ≤ a := by
  have hquotient : a * b / c ≤ a :=
    calc
      a * b / c ≤ a * c / c :=
        Nat.div_le_div_right (Nat.mul_le_mul_left a hbc)
      _ ≤ a := by
        rcases Nat.eq_zero_or_pos c with hzero | hpos
        · simp [hzero]
        · rw [Nat.mul_div_cancel _ hpos]
  exact (Nat.mod_le _ _).trans hquotient

theorem mulDiv64_lt {a b c : ℕ} (ha : 0 < a) (hbc : b < c) :
    mulDiv64 a b c < a := by
  have hquotient : a * b / c < a := by
    rw [Nat.div_lt_iff_lt_mul (by omega)]
    exact Nat.mul_lt_mul_of_pos_left hbc ha
  exact (Nat.mod_le _ _).trans_lt hquotient

end MulDiv

section Uniform

/-- Without a CCD map the ranges are in order. -/
theorem leftToRight_uniform {state : ScanRanges}
    (hmode : state.ccdOfSlot = none) (hpos : 0 < state.participants)
    (hn : state.n < 2 ^ 64) : LeftToRight state := by
  have hrange : ∀ slot, state.slotRange slot =
      (mulDiv64 state.n slot state.participants,
        mulDiv64 state.n (slot + 1) state.participants) := by
    intro slot
    rw [ScanRanges.slotRange, hmode]
  constructor
  · simp [hrange]
  · intro slot _
    simp [hrange]
  · rw [hrange, Nat.sub_add_cancel hpos]
    exact mulDiv64_self hn hpos

end Uniform

section Asymmetric

variable {state : ScanRanges} {ccdOfSlot : ℕ → ℕ} {count : ℕ}

/-- A slot among the first ones has its own index. -/
theorem indexInGroup_front {producerCcd participants slot : ℕ}
    (hcount : ∀ s < participants, ccdOfSlot s = producerCcd ↔ s < count)
    (hslot : slot < participants) (hfront : slot < count) :
    indexInGroup ccdOfSlot producerCcd slot = slot := by
  rw [indexInGroup, List.countP_eq_length.2, List.length_range]
  intro s hs
  have hlt := List.mem_range.1 hs
  have hs' := (hcount s (by omega)).2 (by omega)
  have hslot' := (hcount slot hslot).2 hfront
  simp [hs', hslot']

/-- A later slot is counted from the end of the first ones. -/
theorem indexInGroup_back {producerCcd participants slot : ℕ}
    (hcount : ∀ s < participants, ccdOfSlot s = producerCcd ↔ s < count)
    (hslot : slot < participants) (hback : count ≤ slot) :
    indexInGroup ccdOfSlot producerCcd slot = slot - count := by
  have hcross : ¬ccdOfSlot slot = producerCcd := fun heq =>
    absurd ((hcount slot hslot).1 heq) (by omega)
  have hsplit : List.range slot =
      List.range count ++ (List.range (slot - count)).map (count + ·) := by
    rw [← List.range_add, Nat.add_sub_cancel' hback]
  rw [indexInGroup, hsplit, List.countP_append, List.countP_eq_zero.2,
    List.countP_eq_length.2]
  · simp
  · intro s hs
    obtain ⟨offset, hoffset, rfl⟩ := List.mem_map.1 hs
    rw [List.mem_range] at hoffset
    have hs' : ¬ccdOfSlot (count + offset) = producerCcd := fun heq =>
      absurd ((hcount _ (by omega)).1 heq) (by omega)
    simp [hs', hcross]
  · intro s hs
    have hlt := List.mem_range.1 hs
    have hs' := (hcount s (by omega)).2 hlt
    simp [hs', hcross]

/-- With the producer's CCD in front the two groups meet at its volume. -/
theorem leftToRight_of_front (hmode : state.ccdOfSlot = some ccdOfSlot)
    (hcount : ∀ slot < state.participants,
      ccdOfSlot slot = state.producerCcd ↔ slot < count)
    (hslots : state.slotsOnProducerCcd = count) (hpos : 0 < count)
    (hlt : count < state.participants) (hnum : state.asymmetricNum ≤ 16)
    (hn : state.n < 2 ^ 64) : LeftToRight state := by
  set volume := mulDiv64 state.n state.asymmetricNum 16 with hvolume
  have hvolumeLe : volume ≤ state.n := mulDiv64_le hnum
  have hfront : ∀ slot < count, state.slotRange slot =
      (mulDiv64 volume slot count, mulDiv64 volume (slot + 1) count) := by
    intro slot hslot
    have hccd := (hcount slot (by omega)).2 hslot
    have hindex := indexInGroup_front hcount (by omega) hslot
    simp only [ScanRanges.slotRange, hmode, hccd, hslots, hpos, and_self,
      if_true, hindex, ← hvolume]
  have hback : ∀ slot < state.participants, count ≤ slot →
      state.slotRange slot =
        (volume + mulDiv64 (state.n - volume) (slot - count)
            (state.participants - count),
          volume + mulDiv64 (state.n - volume) (slot - count + 1)
            (state.participants - count)) := by
    intro slot hslot hge
    have hccd : ¬ccdOfSlot slot = state.producerCcd := fun heq =>
      absurd ((hcount slot hslot).1 heq) (by omega)
    have hindex := indexInGroup_back hcount hslot hge
    have hcross : 0 < state.participants - count := by omega
    simp only [ScanRanges.slotRange, hmode, hccd, hslots, false_and, if_false,
      hindex, hcross, if_true, ← hvolume]
  constructor
  · simp [hfront 0 hpos]
  · intro slot hslot
    rcases Nat.lt_trichotomy (slot + 1) count with hbefore | hat | hafter
    · rw [hfront slot (by omega), hfront (slot + 1) hbefore]
    · rw [hfront slot (by omega), hback (slot + 1) hslot (by omega), hat,
        mulDiv64_self (by omega) hpos]
      simp
    · have hshift : slot - count + 1 = slot + 1 - count := by omega
      rw [hback slot (by omega) (by omega), hback (slot + 1) hslot (by omega),
        hshift]
  · rw [hback _ (by omega) (by omega)]
    have hwidth : state.participants - 1 - count + 1 =
        state.participants - count := by omega
    simp only [hwidth]
    rw [mulDiv64_self (by omega) (by omega)]
    omega

/-- A last slot on the producer's CCD ends at that CCD's volume. -/
theorem slotRange_last (hmode : state.ccdOfSlot = some ccdOfSlot)
    (hpos : 0 < state.participants)
    (hlast : ccdOfSlot (state.participants - 1) = state.producerCcd)
    (hslots : state.slotsOnProducerCcd =
      (List.range state.participants).countP fun slot =>
        ccdOfSlot slot = state.producerCcd)
    (hn : state.n < 2 ^ 64) (hnum : state.asymmetricNum ≤ 16) :
    (state.slotRange (state.participants - 1)).2 =
      mulDiv64 state.n state.asymmetricNum 16 := by
  have hindex : indexInGroup ccdOfSlot state.producerCcd
      (state.participants - 1) + 1 = state.slotsOnProducerCcd := by
    obtain ⟨slot, hslot⟩ := Nat.exists_eq_add_of_lt hpos
    rw [hslots, indexInGroup, hlast, hslot]
    simp only [Nat.zero_add, Nat.add_sub_cancel, List.range_succ,
      List.countP_append]
    rw [hslot] at hlast
    simp only [Nat.zero_add, Nat.add_sub_cancel] at hlast
    simp [hlast]
  have hnumProducer : 0 < state.slotsOnProducerCcd := by omega
  simp only [ScanRanges.slotRange, hmode, hlast, hnumProducer, and_self,
    if_true, hindex]
  refine mulDiv64_self ?_ hnumProducer
  exact (mulDiv64_le hnum).trans_lt hn

end Asymmetric

/-- An empty scan has only empty ranges. -/
theorem slotRange_empty {state : ScanRanges} (hn : state.n = 0) (slot : ℕ) :
    state.slotRange slot = (0, 0) := by
  unfold ScanRanges.slotRange
  split
  · simp [hn]
  · simp [hn]

theorem leftToRight_empty {state : ScanRanges} (hn : state.n = 0) :
    LeftToRight state := by
  constructor <;> simp [slotRange_empty hn, hn]

end Citor.SlotRanges
