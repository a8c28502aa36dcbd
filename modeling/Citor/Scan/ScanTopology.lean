import Citor.Core.MachineWord
import Citor.Core.OrderedLabels
import Citor.Scan.ScanEngine
import Citor.Topology.LatencyClustering

/-!
# The pre-resolved scan topology

`initScanScratch` turns the CCDs and CPUs of the slots and the pool's coherence
probe into the fields the scan engines read: the cluster of every slot, the
slots of every cluster, and whether the hierarchical engine may run.  The
engine needs the clusters in id order to be non-empty intervals of slots; the
gate checks each used cluster by itself.
-/

namespace Citor.ScanTopology

open Citor.CoherenceProbe
open Citor.LatencyClustering
open Citor.MachineWord
open Citor.OrderedLabels

/-- The probes a pool can hold. -/
inductive Available : Probe → Prop
  /-- The pool never probed. -/
  | blank : Available Probe.blank
  | live {arithmetic : LatencyArithmetic}
      {measure : List UInt32 → List (List F64) × Bool} {cpus : List UInt32}
      {sysfsPrior : List (List UInt32)} {probe : Probe}
      (hrun : runCoherenceProbe arithmetic measure cpus sysfsPrior =
        some probe) : Available probe
  | imported {bytes : List UInt8} {out probe : Probe}
      (haccepted : deserializeCoherenceProbe bytes out = (true, probe)) :
      Available probe

/-- What `initScanScratch` reads of a pool. -/
structure PoolSlots where
  participants : ℕ
  participants_lt : participants < 2 ^ 32
  ccdOfSlot : List ℕ
  cpuId : ℕ → UInt32
  probe : Probe
  available : Available probe

/-- The floating-point computations of the asymmetric share. -/
structure ShareArithmetic where
  /-- The ratio is above `1.0`. -/
  aboveOne : F64 → Bool
  /-- The factor times the slot count, rounded. -/
  llround : F64 → ℕ → ℕ

structure ScanScratch where
  clusterIdOfSlot : ℕ → ℕ
  clusterFirstSlot : ℕ → ℕ
  clusterSlotCount : ℕ → ℕ
  numClusters : ℕ
  useHierarchical : Bool
  asymmetricNum : ℕ
  producerCcd : ℕ
  slotsOnProducerCcd : ℕ

/-- The fields before anything is resolved. -/
def ScanScratch.blank : ScanScratch :=
  { clusterIdOfSlot := fun _ => 0
    clusterFirstSlot := fun _ => uint32Max
    clusterSlotCount := fun _ => 0
    numClusters := 0
    useHierarchical := false
    asymmetricNum := 8
    producerCcd := uint32Max
    slotsOnProducerCcd := 0 }

section Ccds

/-- How many of the slots sit on a CCD. -/
def slotsOnCcd (ccdOfSlot : List ℕ) (participants ccd : ℕ) : ℕ :=
  (List.range participants).countP fun slot => ccdOfSlot[slot]? = some ccd

/-- Whether some slot is off a CCD. -/
def foundCross (ccdOfSlot : List ℕ) (participants ccd : ℕ) : Bool :=
  (List.range participants).any fun slot => ccdOfSlot[slot]? ≠ some ccd

/-- The bit pattern of `2.0`. -/
def twoF64 : F64 := 0x4000000000000000

/-- The producer CCD's share of the range, in sixteenths. -/
def asymmetricShare (arithmetic : ShareArithmetic) (probe : Probe)
    (slotsOnProducer crossSlots : ℕ) : ℕ :=
  let biasFactor :=
    if probe.valid && arithmetic.aboveOne probe.maxCrossOverIntraRatio then
      probe.maxCrossOverIntraRatio
    else twoF64
  let producerWeight := word (arithmetic.llround biasFactor slotsOnProducer)
  let totalWeight := word (producerWeight + crossSlots)
  let derived :=
    if 0 < totalWeight then word (16 * producerWeight) / totalWeight % 2 ^ 32
    else 8
  max 9 (min 15 derived)

end Ccds

section Clusters

/-- The cluster ids of the slots; `none` when some slot's CPU was not probed. -/
def resolveSlots (pool : PoolSlots) : Option (List ℕ) :=
  (List.range pool.participants).mapM fun slot =>
    (pool.probe.matrix.cpus.idxOf? (pool.cpuId slot)).map fun cpuIdx =>
      (pool.probe.clusters.clusterIdOfCpuIndex.getD cpuIdx 0).toNat

/-- The loop that fills the first slot and the slot count of every cluster; it
gives up at an id that is out of range. -/
def countSlots (numClusters : ℕ) :
    List ℕ → ℕ → (ℕ → ℕ) → (ℕ → ℕ) → Bool × (ℕ → ℕ) × (ℕ → ℕ)
  | [], _, first, count => (true, first, count)
  | k :: ids, slot, first, count =>
    if numClusters ≤ k then (false, first, count)
    else
      countSlots numClusters ids (slot + 1)
        (if first k = uint32Max then Function.update first k slot else first)
        (Function.update count k (count k + 1))

/-- The check that the slots of each used cluster are consecutive. -/
def contiguous (participants numClusters : ℕ) (ids : List ℕ)
    (first count : ℕ → ℕ) : Bool :=
  (List.range numClusters).all fun k =>
    (List.range (count k)).all fun i =>
      first k + i < participants ∧ ids.getD (first k + i) 0 = k

def nonEmptyClusters (numClusters : ℕ) (count : ℕ → ℕ) : ℕ :=
  (List.range numClusters).countP fun k => 0 < count k

/-- The part behind the gates, once every slot has a cluster id. -/
def placeClusters (pool : PoolSlots) (ids : List ℕ) (scratch : ScanScratch) :
    ScanScratch :=
  let numClusters := pool.probe.clusters.numClusters.toNat
  let (inRange, first, count) :=
    countSlots numClusters ids 0 (fun _ => uint32Max) (fun _ => 0)
  let counted :=
    { scratch with
      clusterIdOfSlot := fun slot => ids.getD slot 0
      clusterFirstSlot := first
      clusterSlotCount := count }
  if inRange && contiguous pool.participants numClusters ids first count &&
      2 ≤ nonEmptyClusters numClusters count && ids.getD 0 0 = 0 then
    { counted with useHierarchical := true, numClusters }
  else counted

end Clusters

/-- The gates in front of the cluster resolution. -/
def hierarchicalGates (pool : PoolSlots) (producerCcd : ℕ) : Bool :=
  pool.probe.valid && 2 ≤ pool.probe.clusters.numClusters.toNat &&
    4 ≤ pool.participants &&
    foundCross pool.ccdOfSlot pool.participants producerCcd &&
    slotsOnCcd pool.ccdOfSlot pool.participants producerCcd <
      pool.participants

/-- The fields that do not depend on the clusters. -/
def shareScratch (arithmetic : ShareArithmetic) (pool : PoolSlots)
    (producerCcd : ℕ) : ScanScratch :=
  let slotsOnProducer :=
    slotsOnCcd pool.ccdOfSlot pool.participants producerCcd
  { ScanScratch.blank with
    producerCcd
    slotsOnProducerCcd := slotsOnProducer
    asymmetricNum :=
      if foundCross pool.ccdOfSlot pool.participants producerCcd &&
          0 < slotsOnProducer && slotsOnProducer < pool.participants then
        asymmetricShare arithmetic pool.probe slotsOnProducer
          (pool.participants - slotsOnProducer)
      else 8 }

def initScanScratch (arithmetic : ShareArithmetic) (pool : PoolSlots) :
    ScanScratch :=
  match pool.ccdOfSlot with
  | [] => ScanScratch.blank
  | producerCcd :: _ =>
    let scratch := shareScratch arithmetic pool producerCcd
    if hierarchicalGates pool producerCcd then
      match resolveSlots pool with
      | none => scratch
      | some ids => placeClusters pool ids scratch
    else scratch

section CountLoop

theorem countSlots_inRange (numClusters : ℕ) (ids : List ℕ) (slot : ℕ)
    (first count : ℕ → ℕ) :
    (countSlots numClusters ids slot first count).1 = true ↔
      ∀ k ∈ ids, k < numClusters := by
  induction ids generalizing slot first count with
  | nil => simp [countSlots]
  | cons k ids ih =>
      rw [countSlots]
      by_cases hk : numClusters ≤ k
      · simp [hk]
      · simp [hk, ih, Nat.lt_of_not_le hk]

/-- What the loop leaves in the two arrays. -/
theorem countSlots_eq (numClusters : ℕ) (ids : List ℕ) (slot : ℕ)
    (first count : ℕ → ℕ) (hids : ∀ k ∈ ids, k < numClusters)
    (hslot : slot + ids.length < 2 ^ 32) :
    countSlots numClusters ids slot first count =
      (true,
        fun k =>
          if first k = uint32Max ∧ k ∈ ids then slot + ids.idxOf k else first k,
        fun k => count k + ids.count k) := by
  induction ids generalizing slot first count with
  | nil => simp [countSlots]
  | cons id ids ih =>
      have hid : ¬numClusters ≤ id := by
        have := hids id (by simp)
        omega
      rw [countSlots, if_neg hid, ih _ _ _ (fun k hk => hids k (by simp [hk]))
        (by simp only [List.length_cons] at hslot; omega)]
      have hunset : slot ≠ uint32Max := by
        simp only [List.length_cons] at hslot
        unfold uint32Max
        omega
      refine Prod.ext rfl (Prod.ext ?_ ?_)
      · funext k
        by_cases hk : k = id
        · subst hk
          by_cases hfirst : first k = uint32Max <;> simp [hfirst, hunset]
        · have hother : (if first id = uint32Max then
              Function.update first id slot else first) k = first k := by
            split
            · exact Function.update_of_ne hk _ _
            · rfl
          simp only [hother, List.mem_cons, hk, false_or,
            List.idxOf_cons_ne ids (Ne.symm hk)]
          split
          · omega
          · rfl
      · funext k
        by_cases hk : k = id
        · subst hk
          simp only [Function.update_self, List.count_cons_self]
          omega
        · simp only [Function.update_of_ne hk,
            List.count_cons_of_ne (Ne.symm hk)]

end CountLoop

end Citor.ScanTopology
