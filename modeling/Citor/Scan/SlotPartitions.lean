import Citor.Core.IntervalTiling
import Citor.Engine.BlockPartition
import Citor.Scan.SlotRanges

/-!
# Slot partitions tile the range

The slot ranges of chain, plex and scan and the contiguous rank spans, for
every length and participant count.  A quotient of `mulDiv64` never exceeds its
first factor, so the 64-bit ranges are the consecutive values of a floor
division; the asymmetric scan ranges are two such divisions, one for the slots
on the producer's CCD and one for the others.
-/

namespace Citor.SlotPartitions

open Citor.IntervalTiling
open Citor.MachineWord
open Citor.SlotRanges

/-! ## The ranges -/

/-- `mulDiv64(n, slot, participants)` and the same at `slot + 1U`. -/
def uniformRange (n participants slot : ℕ) : ℕ × ℕ :=
  (mulDiv64 n slot participants,
    mulDiv64 n ((slot + 1) % 2 ^ 32) participants)

/-- The fields of a chain state that `slotRange` reads. -/
structure ChainRanges where
  n : ℕ
  participants : ℕ

def ChainRanges.slotRange (state : ChainRanges) (slot : ℕ) : ℕ × ℕ :=
  uniformRange state.n state.participants slot

/-- The fields of a plex state that `slotRange` reads. -/
structure PlexRanges where
  n : ℕ
  participants : ℕ

def PlexRanges.slotRange (state : PlexRanges) (slot : ℕ) : ℕ × ℕ :=
  uniformRange state.n state.participants slot

/-- `contiguousRankBlockSpan` in 64 bits. -/
def contiguousRankBlockSpan (blockCount participants rank : ℕ) : ℕ × ℕ :=
  if participants ≤ rank then (blockCount, blockCount)
  else
    let base := blockCount / participants
    let extra := blockCount % participants
    let begin := word (word (rank * base) + min rank extra)
    (begin, word (word (begin + base) + if rank < extra then 1 else 0))

/-- The exact quotients behind the calls of `mulDiv64` for a scan's slot. -/
def scanQuotients (state : ScanRanges) (slot : ℕ) : List ℕ :=
  match state.ccdOfSlot with
  | none =>
      [state.n * slot / state.participants,
        state.n * (slot + 1) / state.participants]
  | some ccdOfSlot =>
      let producerVolume := mulDiv64 state.n state.asymmetricNum 16
      let crossVolume := state.n - producerVolume
      let numProducer := state.slotsOnProducerCcd
      let numCross := state.participants - state.slotsOnProducerCcd
      let index := indexInGroup ccdOfSlot state.producerCcd slot
      if ccdOfSlot slot = state.producerCcd ∧ 0 < numProducer then
        [state.n * state.asymmetricNum / 16,
          producerVolume * index / numProducer,
          producerVolume * (index + 1) / numProducer]
      else if 0 < numCross then
        [state.n * state.asymmetricNum / 16,
          crossVolume * index / numCross,
          crossVolume * (index + 1) / numCross]
      else [state.n * state.asymmetricNum / 16]

/-- The state's `slotsOnProducerCcd` is the number of the producer's slots,
and there are slots of both kinds. -/
structure AsymmetricSound (state : ScanRanges) (ccdOfSlot : ℕ → ℕ) :
    Prop where
  mode : state.ccdOfSlot = some ccdOfSlot
  slots : state.slotsOnProducerCcd =
    (List.range state.participants).countP fun slot =>
      ccdOfSlot slot = state.producerCcd
  some_producer : 0 < state.slotsOnProducerCcd
  some_cross : state.slotsOnProducerCcd < state.participants
  num_le : state.asymmetricNum ≤ 16

/-- Every partition of `n` rows or blocks over the participants tiles, and no
quotient leaves 64 bits. -/
structure Partitioned (n participants : ℕ) : Prop where
  chain : Balanced participants n
    (ChainRanges.slotRange ⟨n, participants⟩)
  plex : Balanced participants n (PlexRanges.slotRange ⟨n, participants⟩)
  spans : Balanced participants n (contiguousRankBlockSpan n participants)
  quotients : ∀ slot < participants, n * slot / participants < 2 ^ 64 ∧
    n * (slot + 1) / participants < 2 ^ 64
  uniform : ∀ state : ScanRanges, state.n = n →
    state.participants = participants → state.ccdOfSlot = none →
    Balanced participants n state.slotRange ∧ ∀ slot < participants,
      ∀ quotient ∈ scanQuotients state slot, quotient < 2 ^ 64
  asymmetric : ∀ (state : ScanRanges) (ccdOfSlot : ℕ → ℕ), state.n = n →
    state.participants = participants → AsymmetricSound state ccdOfSlot →
    Tiles participants n state.slotRange ∧ ∀ slot < participants,
      ∀ quotient ∈ scanQuotients state slot, quotient < 2 ^ 64

/-! ## Floor division -/

/-- Where the share of an index begins. -/
def share (n count index : ℕ) : ℕ :=
  n * index / count

section Share

variable {n count : ℕ}

theorem share_mono (n count : ℕ) : Monotone (share n count) := by
  intro left right hle
  exact Nat.div_le_div_right (Nat.mul_le_mul_left n hle)

@[simp]
theorem share_zero (n count : ℕ) : share n count 0 = 0 := by
  simp [share]

theorem share_self (n : ℕ) (hcount : 0 < count) : share n count count = n :=
  Nat.mul_div_cancel n hcount

theorem share_le (hcount : 0 < count) {index : ℕ} (hindex : index ≤ count) :
    share n count index ≤ n :=
  (share_mono n count hindex).trans (share_self n hcount).le

/-- Two shares differ by the floor or by one more. -/
theorem share_succ (hcount : 0 < count) (index : ℕ) :
    share n count index + n / count ≤ share n count (index + 1) ∧
      share n count (index + 1) ≤ share n count index + n / count + 1 := by
  unfold share
  rw [Nat.mul_succ, Nat.add_div hcount]
  split <;> omega

theorem mulDiv64_eq_share (hn : n < 2 ^ 64) (hcount : 0 < count)
    {index : ℕ} (hindex : index ≤ count) :
    mulDiv64 n index count = share n count index :=
  word_of_lt ((share_le hcount hindex).trans_lt hn)

/-- Every range of shares is a tiling by nearly equal ranges. -/
theorem balanced_of_share (hcount : 0 < count) {range : ℕ → ℕ × ℕ}
    (hrange : ∀ slot < count,
      range slot = (share n count slot, share n count (slot + 1))) :
    Balanced count n range :=
  balanced_of_bounds (share_mono n count) hcount (share_zero n count)
    (share_self n hcount) hrange (share_succ hcount)

theorem uniformRange_eq (hn : n < 2 ^ 64) (hlt : count < 2 ^ 32) {slot : ℕ}
    (hslot : slot < count) :
    uniformRange n count slot =
      (share n count slot, share n count (slot + 1)) := by
  have hnext : (slot + 1) % 2 ^ 32 = slot + 1 := Nat.mod_eq_of_lt (by omega)
  rw [uniformRange, hnext, mulDiv64_eq_share hn (by omega) hslot.le,
    mulDiv64_eq_share hn (by omega) (by omega)]

end Share

/-! ## Contiguous spans -/

section Spans

open Citor.BlockPartition (spanBegin spanBegin_mono spanBegin_zero
  spanBegin_participants contiguousRankBlockSpan_eq)

variable {blockCount participants : ℕ}

/-- Nothing wraps around in 64 bits. -/
theorem contiguousRankBlockSpan_exact (hblocks : blockCount < 2 ^ 64)
    {rank : ℕ} (hrank : rank < participants) :
    contiguousRankBlockSpan blockCount participants rank =
      BlockPartition.contiguousRankBlockSpan blockCount participants rank := by
  have hbegin : spanBegin blockCount participants rank ≤ blockCount :=
    (spanBegin_mono blockCount participants hrank.le).trans
      (spanBegin_participants (by omega) blockCount).le
  have hend : spanBegin blockCount participants (rank + 1) ≤ blockCount :=
    (spanBegin_mono blockCount participants (by omega)).trans
      (spanBegin_participants (by omega) blockCount).le
  have hspan : BlockPartition.contiguousRankBlockSpan blockCount participants
      rank = (spanBegin blockCount participants rank,
        spanBegin blockCount participants (rank + 1)) :=
    contiguousRankBlockSpan_eq hrank
  have hnot : ¬ participants ≤ rank := by omega
  simp only [BlockPartition.contiguousRankBlockSpan, hnot, if_false,
    Prod.mk.injEq] at hspan
  obtain ⟨hfront, hback⟩ := hspan
  simp only [contiguousRankBlockSpan, BlockPartition.contiguousRankBlockSpan,
    hnot, if_false]
  have hproduct : word (rank * (blockCount / participants)) =
      rank * (blockCount / participants) := word_of_lt (by omega)
  have hsum : word (rank * (blockCount / participants) +
      min rank (blockCount % participants)) =
        rank * (blockCount / participants) +
          min rank (blockCount % participants) := word_of_lt (by omega)
  have hbase : word (rank * (blockCount / participants) +
      min rank (blockCount % participants) + blockCount / participants) =
        rank * (blockCount / participants) +
          min rank (blockCount % participants) + blockCount / participants :=
    word_of_lt (by omega)
  rw [hproduct, hsum, hbase, word_of_lt (by omega)]

theorem spanBegin_succ {rank : ℕ} :
    spanBegin blockCount participants rank + blockCount / participants ≤
        spanBegin blockCount participants (rank + 1) ∧
      spanBegin blockCount participants (rank + 1) ≤
        spanBegin blockCount participants rank +
          blockCount / participants + 1 := by
  simp only [spanBegin, Nat.succ_mul]
  omega

theorem balanced_spans (hpos : 0 < participants)
    (hblocks : blockCount < 2 ^ 64) :
    Balanced participants blockCount
      (contiguousRankBlockSpan blockCount participants) := by
  refine balanced_of_bounds
    (fun _ _ hle => spanBegin_mono blockCount participants hle) hpos
    (spanBegin_zero blockCount participants)
    (spanBegin_participants hpos blockCount) (fun rank hrank => ?_)
    (fun rank => spanBegin_succ)
  rw [contiguousRankBlockSpan_exact hblocks hrank,
    contiguousRankBlockSpan_eq hrank]

end Spans

/-! ## Scan ranges -/

section Uniform

variable {state : ScanRanges}

theorem scanRange_uniform (hmode : state.ccdOfSlot = none)
    (hn : state.n < 2 ^ 64) {slot : ℕ} (hslot : slot < state.participants) :
    state.slotRange slot =
      (share state.n state.participants slot,
        share state.n state.participants (slot + 1)) := by
  simp only [ScanRanges.slotRange, hmode]
  rw [mulDiv64_eq_share hn (by omega) hslot.le,
    mulDiv64_eq_share hn (by omega) (by omega)]

theorem scanQuotients_uniform (hmode : state.ccdOfSlot = none)
    (hn : state.n < 2 ^ 64) {slot : ℕ} (hslot : slot < state.participants) :
    ∀ quotient ∈ scanQuotients state slot, quotient < 2 ^ 64 := by
  have hlo : share state.n state.participants slot ≤ state.n :=
    share_le (by omega) hslot.le
  have hhi : share state.n state.participants (slot + 1) ≤ state.n :=
    share_le (by omega) (by omega)
  simp only [scanQuotients, hmode, List.mem_cons, List.not_mem_nil, or_false]
  rintro quotient (rfl | rfl)
  · exact hlo.trans_lt hn
  · exact hhi.trans_lt hn

end Uniform

section Asymmetric

variable {state : ScanRanges} {ccdOfSlot : ℕ → ℕ}

/-- The rows in front of the ranges of the other CCDs. -/
def producerVolume (state : ScanRanges) : ℕ :=
  mulDiv64 state.n state.asymmetricNum 16

/-- The slots of the producer's CCD in front of a slot. -/
abbrev onProducer (state : ScanRanges) (ccdOfSlot : ℕ → ℕ) (slot : ℕ) :
    Prop :=
  ccdOfSlot slot = state.producerCcd

theorem AsymmetricSound.volume_le (hsound : AsymmetricSound state ccdOfSlot) :
    producerVolume state ≤ state.n :=
  mulDiv64_le hsound.num_le

theorem AsymmetricSound.numProducer
    (hsound : AsymmetricSound state ccdOfSlot) :
    state.slotsOnProducerCcd =
      Nat.count (onProducer state ccdOfSlot) state.participants :=
  hsound.slots

theorem AsymmetricSound.numCross
    (hsound : AsymmetricSound state ccdOfSlot) :
    state.participants - state.slotsOnProducerCcd =
      Nat.count (fun slot => ¬ onProducer state ccdOfSlot slot)
        state.participants := by
  have hboth := count_add_count_not (onProducer state ccdOfSlot)
    state.participants
  rw [hsound.numProducer]
  omega

/-- A slot's index is the number of slots of its kind in front of it. -/
theorem index_producer {slot : ℕ} (hslot : onProducer state ccdOfSlot slot) :
    indexInGroup ccdOfSlot state.producerCcd slot =
      Nat.count (onProducer state ccdOfSlot) slot := by
  refine List.countP_congr fun other _ => ?_
  have hccd : ccdOfSlot slot = state.producerCcd := hslot
  simp [hccd]

theorem index_cross {slot : ℕ} (hslot : ¬ onProducer state ccdOfSlot slot) :
    indexInGroup ccdOfSlot state.producerCcd slot =
      Nat.count (fun slot => ¬ onProducer state ccdOfSlot slot) slot := by
  refine List.countP_congr fun other _ => ?_
  have hccd : ¬ ccdOfSlot slot = state.producerCcd := hslot
  simp [hccd]

/-- The bounds of the producer's slots and of the others. -/
def producerBound (state : ScanRanges) (index : ℕ) : ℕ :=
  share (producerVolume state) state.slotsOnProducerCcd index

def crossBound (state : ScanRanges) (index : ℕ) : ℕ :=
  producerVolume state +
    share (state.n - producerVolume state)
      (state.participants - state.slotsOnProducerCcd) index

theorem scanRange_producer (hsound : AsymmetricSound state ccdOfSlot)
    (hn : state.n < 2 ^ 64) {slot : ℕ} (hslot : slot < state.participants)
    (hproducer : onProducer state ccdOfSlot slot) :
    state.slotRange slot =
      (producerBound state (Nat.count (onProducer state ccdOfSlot) slot),
        producerBound state
          (Nat.count (onProducer state ccdOfSlot) slot + 1)) := by
  have hindex := count_lt_count _ hslot hproducer
  rw [← hsound.numProducer, ← index_producer hproducer] at hindex
  have hvolume : producerVolume state < 2 ^ 64 :=
    hsound.volume_le.trans_lt hn
  have hpos := hsound.some_producer
  have hccd : ccdOfSlot slot = state.producerCcd := hproducer
  rw [← index_producer hproducer]
  simp only [ScanRanges.slotRange, hsound.mode, hccd, hpos, and_self, if_true,
    producerBound]
  rw [← mulDiv64_eq_share hvolume hpos hindex.le,
    ← mulDiv64_eq_share hvolume hpos (by omega)]
  rfl

theorem scanRange_cross (hsound : AsymmetricSound state ccdOfSlot)
    (hn : state.n < 2 ^ 64) {slot : ℕ} (hslot : slot < state.participants)
    (hcross : ¬ onProducer state ccdOfSlot slot) :
    state.slotRange slot =
      (crossBound state
          (Nat.count (fun slot => ¬ onProducer state ccdOfSlot slot) slot),
        crossBound state
          (Nat.count (fun slot => ¬ onProducer state ccdOfSlot slot) slot +
            1)) := by
  have hindex := count_lt_count
    (fun slot => ¬ onProducer state ccdOfSlot slot) hslot hcross
  rw [← hsound.numCross, ← index_cross hcross] at hindex
  have hvolume : state.n - producerVolume state < 2 ^ 64 := by omega
  have hpos : 0 < state.participants - state.slotsOnProducerCcd := by
    have := hsound.some_cross
    omega
  have hccd : ¬ ccdOfSlot slot = state.producerCcd := hcross
  rw [← index_cross hcross]
  simp only [ScanRanges.slotRange, hsound.mode, hccd, false_and, if_false,
    hpos, if_true, crossBound]
  rw [← mulDiv64_eq_share hvolume hpos hindex.le,
    ← mulDiv64_eq_share hvolume hpos (by omega)]
  rfl

/-- The two groups meet at the producer's volume, wherever their slots are. -/
theorem tiles_asymmetric (hsound : AsymmetricSound state ccdOfSlot)
    (hn : state.n < 2 ^ 64) :
    Tiles state.participants state.n state.slotRange := by
  have hvolume := hsound.volume_le
  have hcrossPos : 0 < state.participants - state.slotsOnProducerCcd := by
    have := hsound.some_cross
    omega
  refine tiles_of_groups (onProducer state ccdOfSlot)
    (producerBound state) (crossBound state)
    (share_mono _ _) ?_ (share_zero _ _) ?_ ?_
    (fun slot => scanRange_producer hsound hn)
    (fun slot => scanRange_cross hsound hn)
  · intro left right hle
    exact Nat.add_le_add_left (share_mono _ _ hle) _
  · rw [← hsound.numProducer, producerBound,
      share_self _ hsound.some_producer, crossBound, share_zero, Nat.add_zero]
  · rw [← hsound.numCross, crossBound, share_self _ hcrossPos]
    omega

theorem scanQuotients_asymmetric (hsound : AsymmetricSound state ccdOfSlot)
    (hn : state.n < 2 ^ 64) {slot : ℕ} (hslot : slot < state.participants) :
    ∀ quotient ∈ scanQuotients state slot, quotient < 2 ^ 64 := by
  have hvolume := hsound.volume_le
  have hnum : state.n * state.asymmetricNum / 16 < 2 ^ 64 := by
    have hle : share state.n 16 state.asymmetricNum ≤ state.n :=
      share_le (by decide) hsound.num_le
    exact hle.trans_lt hn
  have hfits : ∀ {volume count index : ℕ}, volume ≤ state.n → index < count →
      volume * index / count < 2 ^ 64 ∧
        volume * (index + 1) / count < 2 ^ 64 := by
    intro volume count index hle hindex
    have hlo : share volume count index ≤ volume :=
      share_le (by omega) hindex.le
    have hhi : share volume count (index + 1) ≤ volume :=
      share_le (by omega) hindex
    exact ⟨(hlo.trans hle).trans_lt hn, (hhi.trans hle).trans_lt hn⟩
  by_cases hproducer : onProducer state ccdOfSlot slot
  · have hindex := count_lt_count _ hslot hproducer
    rw [← hsound.numProducer, ← index_producer hproducer] at hindex
    have hccd : ccdOfSlot slot = state.producerCcd := hproducer
    obtain ⟨hlo, hhi⟩ := hfits hvolume hindex
    simp only [scanQuotients, hsound.mode, hccd, hsound.some_producer,
      and_self, if_true, List.mem_cons, List.not_mem_nil, or_false]
    rintro quotient (rfl | rfl | rfl)
    · exact hnum
    · exact hlo
    · exact hhi
  · have hindex := count_lt_count
      (fun slot => ¬ onProducer state ccdOfSlot slot) hslot hproducer
    rw [← hsound.numCross, ← index_cross hproducer] at hindex
    have hccd : ¬ ccdOfSlot slot = state.producerCcd := hproducer
    have hpos : 0 < state.participants - state.slotsOnProducerCcd := by omega
    obtain ⟨hlo, hhi⟩ := hfits
      (Nat.sub_le state.n (producerVolume state)) hindex
    simp only [scanQuotients, hsound.mode, hccd, false_and, if_false, hpos,
      if_true, List.mem_cons, List.not_mem_nil, or_false]
    rintro quotient (rfl | rfl | rfl)
    · exact hnum
    · exact hlo
    · exact hhi

end Asymmetric

/-- Every partition of a 64-bit length over fewer than `2 ^ 32` participants
tiles it. -/
theorem partitioned {n participants : ℕ} (hn : n < 2 ^ 64)
    (hpos : 1 ≤ participants) (hlt : participants < 2 ^ 32) :
    Partitioned n participants where
  chain := balanced_of_share hpos fun _ hslot => uniformRange_eq hn hlt hslot
  plex := balanced_of_share hpos fun _ hslot => uniformRange_eq hn hlt hslot
  spans := balanced_spans hpos hn
  quotients slot hslot :=
    ⟨(share_le hpos hslot.le).trans_lt hn, (share_le hpos hslot).trans_lt hn⟩
  uniform := by
    rintro state rfl rfl hmode
    exact ⟨balanced_of_share hpos fun _ hslot =>
        scanRange_uniform hmode hn hslot,
      fun _ hslot => scanQuotients_uniform hmode hn hslot⟩
  asymmetric := by
    rintro state ccdOfSlot rfl rfl hsound
    exact ⟨tiles_asymmetric hsound hn,
      fun _ hslot => scanQuotients_asymmetric hsound hn hslot⟩

/-- The longest range over three participants. -/
theorem partitioned_longest : Partitioned (2 ^ 64 - 1) 3 :=
  partitioned (by decide) (by decide) (by decide)

end Citor.SlotPartitions
