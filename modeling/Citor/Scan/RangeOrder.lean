import Citor.Scan.ScanTopology
import Citor.Topology.PinShape

/-!
# Scan ranges of a constructed pool

The ranges `runScanParallel` hands out in a pool that `initWorkers` and
`initScanScratch` have set up on a detected topology.  They run from left to
right in slot order except in a pool that overflowed onto SMT siblings of the
first CCD.
-/

namespace Citor.RangeOrder

open Citor.CoherenceProbe
open Citor.HostTopology
open Citor.MachineWord
open Citor.PinOrder
open Citor.PinShape
open Citor.ScanTopology
open Citor.SlotRanges
open Citor.TopologyGroups

/-- A constructed pool: how it was made and the probe it holds. -/
structure Pool (host : Host) where
  config : PoolConfig
  valid : config.Valid (detectTopology host)
  probe : Probe
  available : Available probe

variable {host : Host}

def Pool.workers (pool : Pool host) : Workers :=
  pool.config.workers (detectTopology host)

theorem Pool.sound (pool : Pool host) : SlotsSound pool.workers :=
  slotsSound (detected host) pool.valid

/-- The pool as `initScanScratch` sees it. -/
def Pool.slots (pool : Pool host) : PoolSlots :=
  { participants := pool.workers.participants
    participants_lt := pool.sound.lt
    ccdOfSlot := pool.workers.ccdOfSlot
    cpuId := fun slot => UInt32.ofNat (pool.workers.cpuId slot)
    probe := pool.probe
    available := pool.available }

/-- The state of a scan over `n` rows. -/
def Pool.scanRanges (pool : Pool host) (arithmetic : ShareArithmetic)
    (n : UInt64) : ScanRanges :=
  let scratch := initScanScratch arithmetic pool.slots
  let asymmetric := 0 < scratch.slotsOnProducerCcd ∧
    scratch.slotsOnProducerCcd < pool.workers.participants
  { participants := pool.workers.participants
    n := n.toNat
    ccdOfSlot := if asymmetric then some (slotCcd pool.workers) else none
    producerCcd := scratch.producerCcd
    slotsOnProducerCcd := scratch.slotsOnProducerCcd
    asymmetricNum := scratch.asymmetricNum }

section Scratch

variable (arithmetic : ShareArithmetic) (pool : Pool host)

theorem asymmetricShare_le (probe : Probe) (slots cross : ℕ) :
    asymmetricShare arithmetic probe slots cross ≤ 15 := by
  exact max_le (by decide) (min_le_left _ _)

/-- The fields the ranges use do not depend on the clusters. -/
theorem initScanScratch_share {slots : PoolSlots} {producerCcd : ℕ}
    {ccds : List ℕ} (hccds : slots.ccdOfSlot = producerCcd :: ccds) :
    (initScanScratch arithmetic slots).producerCcd = producerCcd ∧
      (initScanScratch arithmetic slots).slotsOnProducerCcd =
        slotsOnCcd slots.ccdOfSlot slots.participants producerCcd ∧
      (initScanScratch arithmetic slots).asymmetricNum ≤ 15 := by
  have hshare : (shareScratch arithmetic slots producerCcd).asymmetricNum ≤
      15 := by
    unfold shareScratch
    simp only
    split
    · exact asymmetricShare_le arithmetic _ _ _
    · omega
  have hplace : ∀ ids, (placeClusters slots ids
      (shareScratch arithmetic slots producerCcd)).producerCcd =
        producerCcd ∧
      (placeClusters slots ids
        (shareScratch arithmetic slots producerCcd)).slotsOnProducerCcd =
        slotsOnCcd slots.ccdOfSlot slots.participants producerCcd ∧
      (placeClusters slots ids
        (shareScratch arithmetic slots producerCcd)).asymmetricNum ≤ 15 := by
    intro ids
    unfold placeClusters
    simp only
    split <;> exact ⟨rfl, rfl, hshare⟩
  simp only [initScanScratch, hccds]
  rw [← hccds]
  split
  · split
    · exact ⟨rfl, rfl, hshare⟩
    · exact hplace _
  · exact ⟨rfl, rfl, hshare⟩

theorem ccdOfSlot_getElem? {slot : ℕ}
    (hslot : slot < pool.workers.participants) :
    pool.workers.ccdOfSlot[slot]? = some (slotCcd pool.workers slot) := by
  have hlt : slot < pool.workers.ccdOfSlot.length := by
    rw [pool.sound.length_eq]
    exact hslot
  rw [slotCcd, List.getD_eq_getElem _ _ hlt, List.getElem?_eq_getElem hlt]

/-- The slots on the producer's CCD, counted. -/
def slotsWithProducer : ℕ :=
  (List.range pool.workers.participants).countP fun slot =>
    slotCcd pool.workers slot = slotCcd pool.workers 0

theorem scratch_producer :
    (initScanScratch arithmetic pool.slots).producerCcd =
        slotCcd pool.workers 0 ∧
      (initScanScratch arithmetic pool.slots).slotsOnProducerCcd =
        slotsWithProducer pool ∧
      (initScanScratch arithmetic pool.slots).asymmetricNum ≤ 15 := by
  have hhead := ccdOfSlot_getElem? pool pool.sound.pos
  obtain ⟨producerCcd, ccds, hccds⟩ :
      ∃ producerCcd ccds, pool.slots.ccdOfSlot = producerCcd :: ccds := by
    cases hlist : pool.slots.ccdOfSlot with
    | nil =>
        rw [show pool.workers.ccdOfSlot = [] from hlist] at hhead
        cases hhead
    | cons producerCcd ccds => exact ⟨_, _, rfl⟩
  have hproducer : producerCcd = slotCcd pool.workers 0 := by
    rw [show pool.workers.ccdOfSlot = producerCcd :: ccds from hccds] at hhead
    simpa using hhead
  obtain ⟨hccd, hslots, hnum⟩ := initScanScratch_share arithmetic hccds
  refine ⟨hccd.trans hproducer, ?_, hnum⟩
  rw [hslots, hproducer]
  apply List.countP_congr
  intro slot hslot
  have hlt : slot < pool.workers.participants := List.mem_range.1 hslot
  have hat : pool.slots.ccdOfSlot[slot]? = some (slotCcd pool.workers slot) :=
    ccdOfSlot_getElem? pool hlt
  simp [hat]

theorem slotsWithProducer_pos : 0 < slotsWithProducer pool := by
  refine List.countP_pos_iff.2 ⟨0, ?_, by simp⟩
  exact List.mem_range.2 pool.sound.pos

/-- Where slot 0's CCD is the first slots, there are as many of them as slots
counted. -/
theorem slotsWithProducer_eq {count : ℕ}
    (hcount : ∀ slot < pool.workers.participants,
      slotCcd pool.workers slot = slotCcd pool.workers 0 ↔ slot < count)
    (hle : count ≤ pool.workers.participants) :
    slotsWithProducer pool = count := by
  have hcongr : slotsWithProducer pool =
      (List.range pool.workers.participants).countP fun slot =>
        slot < count := by
    apply List.countP_congr
    intro slot hslot
    simpa using hcount slot (List.mem_range.1 hslot)
  have hsplit : List.range pool.workers.participants =
      List.range count ++
        (List.range (pool.workers.participants - count)).map
          (count + ·) := by
    rw [← List.range_add, Nat.add_sub_cancel' hle]
  have hfront : (List.range count).countP (fun slot => slot < count) =
      count := by
    rw [List.countP_eq_length.2, List.length_range]
    intro slot hslot
    simpa using hslot
  have hback : ((List.range (pool.workers.participants - count)).map
      (count + ·)).countP (fun slot => slot < count) = 0 := by
    rw [List.countP_eq_zero]
    intro slot hslot
    obtain ⟨offset, -, rfl⟩ := List.mem_map.1 hslot
    simp
  rw [hcongr, hsplit, List.countP_append, hfront, hback, Nat.add_zero]

end Scratch

/-- Slot order is data order exactly for an empty scan or in a pool that did
not overflow. -/
theorem leftToRight_iff (pool : Pool host) (arithmetic : ShareArithmetic)
    (n : UInt64) :
    LeftToRight (pool.scanRanges arithmetic n) ↔
      n = 0 ∨ ¬Overflowed (detectTopology host) pool.config := by
  have hn := n.toNat_lt
  have hpos := pool.sound.pos
  obtain ⟨hproducer, hslots, hnum⟩ := scratch_producer arithmetic pool
  have hslotsPos := slotsWithProducer_pos pool
  constructor
  · intro hordered
    by_contra hboth
    push Not at hboth
    obtain ⟨hne, hover⟩ := hboth
    have hrows : 0 < n.toNat := by
      refine Nat.pos_of_ne_zero fun hzero => hne ?_
      exact UInt64.toNat_inj.1 hzero
    obtain ⟨hlast, slot, hslot, hcross⟩ :=
      slots_of_overflowed (detected host) pool.valid hover
    have hfewer : slotsWithProducer pool < pool.workers.participants := by
      have hlt : slotsWithProducer pool <
          (List.range pool.workers.participants).length := by
        refine List.countP_lt_length_iff.2 ⟨slot, List.mem_range.2 hslot, ?_⟩
        exact decide_eq_false hcross
      rwa [List.length_range] at hlt
    have hmode : (pool.scanRanges arithmetic n).ccdOfSlot =
        some (slotCcd pool.workers) := by
      simp only [Pool.scanRanges, hslots, hslotsPos, hfewer, and_self,
        if_true]
    have hend := slotRange_last hmode hpos (hlast.trans hproducer.symm)
      (by
        change (initScanScratch arithmetic pool.slots).slotsOnProducerCcd =
          List.countP (fun slot => decide (slotCcd pool.workers slot =
            (initScanScratch arithmetic pool.slots).producerCcd))
            (List.range pool.workers.participants)
        rw [hslots, hproducer]
        rfl) hn (hnum.trans (by omega))
    rw [hordered.last] at hend
    have hshort : mulDiv64 n.toNat
        (initScanScratch arithmetic pool.slots).asymmetricNum 16 <
          n.toNat := mulDiv64_lt hrows (by omega)
    exact absurd hend (Nat.ne_of_gt hshort)
  · rintro (rfl | hnot)
    · exact leftToRight_empty rfl
    · obtain ⟨bound, hbound⟩ :=
        producerFirst_of_not_overflowed (detected host) pool.valid hnot
      have hcount : ∀ slot < pool.workers.participants,
          slotCcd pool.workers slot = slotCcd pool.workers 0 ↔
            slot < min bound pool.workers.participants := by
        intro slot hslot
        rw [show slotCcd pool.workers slot = slotCcd pool.workers 0 ↔
          slot < bound from hbound slot hslot]
        omega
      have hslotsEq := slotsWithProducer_eq pool hcount (Nat.min_le_right _ _)
      by_cases hfewer : slotsWithProducer pool < pool.workers.participants
      · have hmode : (pool.scanRanges arithmetic n).ccdOfSlot =
            some (slotCcd pool.workers) := by
          simp only [Pool.scanRanges, hslots, hslotsPos, hfewer, and_self,
            if_true]
        rw [← hslotsEq] at hcount
        refine leftToRight_of_front hmode (fun slot hslot => ?_) hslots
          hslotsPos hfewer (hnum.trans (by omega)) hn
        rw [show (pool.scanRanges arithmetic n).producerCcd = _ from hproducer]
        exact hcount slot hslot
      · have hmode : (pool.scanRanges arithmetic n).ccdOfSlot = none := by
          simp only [Pool.scanRanges, hslots, hfewer, and_false, if_false]
        exact leftToRight_uniform hmode hpos hn

/-- Two SMT siblings `id` and `id + 4` on each of four cores. -/
def pairedSiblings : IdPartition 8 :=
  { block := fun id => [id % 4, id % 4 + 4]
    sorted := by decide
    self_mem := by decide
    lt := by decide
    same := by decide }

/-- Two cores on each of two CCDs. -/
def pairedCcds : IdPartition 8 :=
  { block := fun id => if id % 4 < 2 then [0, 1, 4, 5] else [2, 3, 6, 7]
    sorted := by decide
    self_mem := by decide
    lt := by decide
    same := by decide }

theorem eight_pos : 0 < 8 := by decide

theorem eight_lt : 8 < 2 ^ 32 := by decide

theorem paired_nested : ∀ cpu < 8, ∀ sib ∈ pairedSiblings.block cpu,
    sib ∈ pairedCcds.block cpu := by
  decide

/-- The first CCD has three times the L3 of the second. -/
def vcacheHost : Host :=
  { logicalCount := 8
    logical_pos := eight_pos
    logical_lt := eight_lt
    affinityMask := fun _ => true
    threadSiblings := pairedSiblings
    sharedL3 := pairedCcds
    nested := paired_nested
    l3Kib := fun cpu => if cpu % 4 < 2 then 98304 else 32768 }

/-- A pool with SMT pairs and a participant for every logical CPU. -/
def smtPool : Pool vcacheHost :=
  { config := PoolConfig.standalone Affinity.perCpuSmtPair 8
    valid := eight_pos
    probe := Probe.blank
    available := Available.blank }

def doubled : ShareArithmetic :=
  { aboveOne := fun _ => false
    llround := fun _ slots => 2 * slots }

example : smtPool.workers.ccdOfSlot = [0, 0, 1, 1, 0, 0, 0, 0] := by
  decide +kernel

theorem not_leftToRight_smtPool :
    ¬LeftToRight (smtPool.scanRanges doubled 8192) := by
  intro hordered
  have hlast : ((smtPool.scanRanges doubled 8192).slotRange 7).2 = 6656 := by
    decide +kernel
  have hend : ((smtPool.scanRanges doubled 8192).slotRange 7).2 = 8192 :=
    hordered.last
  rw [hlast] at hend
  exact absurd hend (by decide)

end Citor.RangeOrder
