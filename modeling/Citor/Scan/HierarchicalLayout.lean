import Citor.Scan.ScanTopology

/-!
# The layout of the hierarchical scan

When `initScanScratch` enables the hierarchical engine, the clusters in id
order must be non-empty intervals of slots that fill the slot range.  The gate
asks for intervals and for two used clusters; it asks neither that every id is
used nor that the ids grow with the slots.
-/

namespace Citor.HierarchicalLayout

open Citor.CoherenceProbe
open Citor.LatencyClustering
open Citor.MachineWord
open Citor.OrderedLabels
open Citor.ScanTopology

/-- The clusters taken in id order are non-empty intervals of consecutive slots
whose concatenation is the slot range, the clusters in front of one cover the
slots in front of its first one, and each has a leader. -/
structure WellFormed (scratch : ScanScratch) (participants : ℕ) : Prop where
  nonempty : ∀ k < scratch.numClusters,
    fiber scratch.clusterIdOfSlot participants k ≠ []
  interval : ∀ k < scratch.numClusters,
    fiber scratch.clusterIdOfSlot participants k =
      List.range' (scratch.clusterFirstSlot k) (scratch.clusterSlotCount k)
  concat : (List.range scratch.numClusters).flatMap
    (fiber scratch.clusterIdOfSlot participants) = List.range participants
  exclusive : ∀ k < scratch.numClusters,
    (List.range k).flatMap (fiber scratch.clusterIdOfSlot participants) =
      List.range (scratch.clusterFirstSlot k)
  leader : ∀ k < scratch.numClusters,
    scratch.clusterFirstSlot k < participants ∧
      scratch.clusterIdOfSlot (scratch.clusterFirstSlot k) = k

/-- The hierarchical engine only ever runs on a well-formed layout. -/
def LayoutSafe (scratch : ScanScratch) (participants : ℕ) : Prop :=
  scratch.useHierarchical = true → WellFormed scratch participants

/-- What the gate of `initScanScratch` accepts, read off the pool: the slots'
CPUs resolve to `ids` in range, the slots of each used id are consecutive, at
least two ids are used and slot 0 has id 0. -/
structure Admits (pool : PoolSlots) (ids : List ℕ) : Prop where
  gates : ∃ producerCcd ccds, pool.ccdOfSlot = producerCcd :: ccds ∧
    hierarchicalGates pool producerCcd = true
  resolved : resolveSlots pool = some ids
  id_lt : ∀ k ∈ ids, k < pool.probe.clusters.numClusters.toNat
  between : ∀ i j l, i < j → j < l → l < pool.participants →
    ids.getD i 0 = ids.getD l 0 → ids.getD j 0 = ids.getD i 0
  two_used : 2 ≤ (List.range pool.probe.clusters.numClusters.toNat).countP
    fun k => k ∈ ids
  producer_zero : ids.getD 0 0 = 0

/-- Every id is the id of some slot, and no slot's id is smaller than that of
the slot before it. -/
structure InOrder (pool : PoolSlots) (ids : List ℕ) : Prop where
  used : ∀ k < pool.probe.clusters.numClusters.toNat, k ∈ ids
  ascending : Monotone (fun slot => ids.getD slot 0) pool.participants

section Ids

variable {pool : PoolSlots} {ids : List ℕ}

private theorem length_mapM {α β : Type} {f : α → Option β} {values : List α}
    {results : List β} (hmap : values.mapM f = some results) :
    results.length = values.length := by
  induction values generalizing results with
  | nil =>
      cases hmap
      rfl
  | cons value values ih =>
      simp only [List.mapM_cons, Option.bind_eq_bind, Option.bind_eq_some_iff,
        Option.pure_def, Option.some.injEq] at hmap
      obtain ⟨result, -, rest, hrest, rfl⟩ := hmap
      simp [ih hrest]

theorem length_of_resolved (hresolved : resolveSlots pool = some ids) :
    ids.length = pool.participants := by
  have hlength := length_mapM hresolved
  rwa [List.length_range] at hlength

theorem map_getD_range (ids : List ℕ) :
    (List.range ids.length).map (fun slot => ids.getD slot 0) = ids := by
  apply List.ext_getElem (by simp)
  intro slot _ hslot
  rw [List.getElem_map, List.getElem_range, List.getD_eq_getElem _ _ hslot]

theorem length_fiber_ids (ids : List ℕ) (k : ℕ) :
    (fiber (fun slot => ids.getD slot 0) ids.length k).length =
      ids.count k := by
  conv_rhs => rw [← map_getD_range ids]
  rw [List.count, List.countP_map, fiber, ← List.countP_eq_length_filter]
  apply List.countP_congr
  intro slot _
  simp

theorem getD_idxOf {k : ℕ} (hmem : k ∈ ids) :
    ids.getD (ids.idxOf k) 0 = k := by
  rw [List.getD_eq_getElem _ _ (List.idxOf_lt_length_of_mem hmem)]
  exact List.getElem_idxOf _

theorem getD_ne_of_lt_idxOf {k slot : ℕ} (hslot : slot < ids.idxOf k) :
    ids.getD slot 0 ≠ k := by
  have hlt : slot < ids.length := hslot.trans_le List.idxOf_le_length
  rw [List.getD_eq_getElem _ _ hlt]
  exact ne_of_beq_false (List.not_of_lt_findIdx hslot)

/-- The two arrays after the loop over every slot. -/
def firstOf (ids : List ℕ) (k : ℕ) : ℕ :=
  if k ∈ ids then ids.idxOf k else uint32Max

theorem countSlots_all {numClusters : ℕ}
    (hids : ∀ k ∈ ids, k < numClusters) (hlength : ids.length < 2 ^ 32) :
    countSlots numClusters ids 0 (fun _ => uint32Max) (fun _ => 0) =
      (true, firstOf ids, fun k => ids.count k) := by
  rw [countSlots_eq _ _ _ _ _ hids (by omega)]
  simp only [true_and, Nat.zero_add]
  rfl

/-- The loop over the clusters accepts exactly when no other id stands between
two slots of one id. -/
theorem contiguous_iff {numClusters : ℕ}
    (hids : ∀ k ∈ ids, k < numClusters) :
    contiguous ids.length numClusters ids (firstOf ids)
        (fun k => ids.count k) = true ↔
      ∀ i j l, i < j → j < l → l < ids.length →
        ids.getD i 0 = ids.getD l 0 → ids.getD j 0 = ids.getD i 0 := by
  simp only [contiguous, List.all_eq_true, List.mem_range, decide_eq_true_eq]
  constructor
  · intro hruns i j l hij hjl hl hsame
    set k := ids.getD i 0 with hk
    have hmem : k ∈ ids := by
      rw [hk, List.getD_eq_getElem _ _ (by omega)]
      exact List.getElem_mem _
    have hfiber : fiber (fun slot => ids.getD slot 0) ids.length k =
        List.range' (firstOf ids k) (ids.count k) := by
      rw [← length_fiber_ids]
      apply fiber_eq_range'
      intro i hi
      rw [length_fiber_ids] at hi
      exact hruns k (hids k hmem) i hi
    have hi : i ∈ List.range' (firstOf ids k) (ids.count k) :=
      hfiber ▸ mem_fiber.2 ⟨by omega, hk.symm⟩
    have hl : l ∈ List.range' (firstOf ids k) (ids.count k) :=
      hfiber ▸ mem_fiber.2 ⟨hl, hsame.symm⟩
    rw [List.mem_range'_1] at hi hl
    have hj : j ∈ fiber (fun slot => ids.getD slot 0) ids.length k := by
      rw [hfiber, List.mem_range'_1]
      omega
    exact (mem_fiber.1 hj).2
  · intro hbetween k _ i hi
    have hmem : k ∈ ids := List.count_pos_iff.1 (by omega)
    have hfirst : firstOf ids k = ids.idxOf k := if_pos hmem
    rw [hfirst]
    rw [← length_fiber_ids] at hi
    exact run_of_between hbetween (getD_idxOf hmem)
      (fun slot hslot => getD_ne_of_lt_idxOf hslot) i hi

end Ids

section Gate

variable {arithmetic : ShareArithmetic} {pool : PoolSlots} {ids : List ℕ}

/-- The scratch of a pool whose gate is open. -/
def openScratch (arithmetic : ShareArithmetic) (pool : PoolSlots)
    (ids : List ℕ) : ScanScratch :=
  { shareScratch arithmetic pool (pool.ccdOfSlot.headD uint32Max) with
    clusterIdOfSlot := fun slot => ids.getD slot 0
    clusterFirstSlot := firstOf ids
    clusterSlotCount := fun k => ids.count k
    useHierarchical := true
    numClusters := pool.probe.clusters.numClusters.toNat }

theorem Admits.length_lt (hadmits : Admits pool ids) :
    ids.length < 2 ^ 32 := by
  rw [length_of_resolved hadmits.resolved]
  exact pool.participants_lt

theorem nonEmptyClusters_eq (numClusters : ℕ) :
    nonEmptyClusters numClusters (fun k => ids.count k) =
      (List.range numClusters).countP fun k => k ∈ ids := by
  apply List.countP_congr
  intro k _
  simp [List.count_pos_iff]

theorem initScanScratch_of_admits (hadmits : Admits pool ids) :
    initScanScratch arithmetic pool = openScratch arithmetic pool ids := by
  obtain ⟨producerCcd, ccds, hccds, hgates⟩ := hadmits.gates
  have hlength := length_of_resolved hadmits.resolved
  have hcontiguous := (contiguous_iff hadmits.id_lt).2
    (hlength ▸ hadmits.between)
  rw [hlength] at hcontiguous
  simp only [initScanScratch, hccds, hgates, if_true, hadmits.resolved,
    placeClusters, countSlots_all hadmits.id_lt hadmits.length_lt,
    hcontiguous, nonEmptyClusters_eq, hadmits.two_used, hadmits.producer_zero,
    decide_true, Bool.and_self]
  simp [openScratch, hccds]

theorem admits_of_useHierarchical
    (huse : (initScanScratch arithmetic pool).useHierarchical = true) :
    ∃ ids, Admits pool ids := by
  unfold initScanScratch at huse
  split at huse
  · cases huse
  · rename_i producerCcd ccds hccds
    split at huse
    · rename_i hgates
      split at huse
      · cases huse
      · rename_i ids hresolved
        unfold placeClusters at huse
        simp only at huse
        split at huse
        · rename_i haccept
          simp only [Bool.and_eq_true, decide_eq_true_eq] at haccept
          obtain ⟨⟨⟨hinRange, hcontiguous⟩, htwo⟩, hzero⟩ := haccept
          have hlength := length_of_resolved hresolved
          have hids := (countSlots_inRange _ _ _ _ _).1 hinRange
          have hcounted := countSlots_all hids
            (hlength ▸ pool.participants_lt)
          rw [hcounted, ← hlength] at hcontiguous
          rw [hcounted, nonEmptyClusters_eq] at htwo
          exact ⟨ids, ⟨producerCcd, ccds, hccds, hgates⟩, hresolved, hids,
            hlength ▸ (contiguous_iff hids).1 hcontiguous, htwo, hzero⟩
        · cases huse
    · cases huse

end Gate

section Layout

variable {arithmetic : ShareArithmetic} {pool : PoolSlots} {ids : List ℕ}

theorem Admits.fiber_eq (hadmits : Admits pool ids) (k : ℕ) (hmem : k ∈ ids) :
    fiber (fun slot => ids.getD slot 0) pool.participants k =
      List.range' (firstOf ids k) (ids.count k) := by
  have hlength := length_of_resolved hadmits.resolved
  have hcount := length_fiber_ids ids k
  rw [hlength] at hcount
  have hrange := fiber_eq_range'
    (run_of_between hadmits.between (getD_idxOf hmem)
      fun slot hslot => getD_ne_of_lt_idxOf hslot)
  rw [hcount] at hrange
  rw [hrange, firstOf, if_pos hmem]

theorem Admits.getD_lt (hadmits : Admits pool ids) (slot : ℕ)
    (hslot : slot < pool.participants) :
    ids.getD slot 0 < pool.probe.clusters.numClusters.toNat := by
  have hlt : slot < ids.length := by
    rwa [length_of_resolved hadmits.resolved]
  rw [List.getD_eq_getElem _ _ hlt]
  exact hadmits.id_lt _ (List.getElem_mem _)

theorem wellFormed_of_inOrder (hadmits : Admits pool ids)
    (hinOrder : InOrder pool ids) :
    WellFormed (openScratch arithmetic pool ids) pool.participants := by
  have hlength := length_of_resolved hadmits.resolved
  have hfirst : ∀ k ∈ ids, firstOf ids k = ids.idxOf k :=
    fun k hmem => if_pos hmem
  have hidx : ∀ k ∈ ids, ids.idxOf k < pool.participants := by
    intro k hmem
    rw [← hlength]
    exact List.idxOf_lt_length_of_mem hmem
  constructor
  · intro k hk hempty
    have hmem := hinOrder.used k hk
    have hat : ids.idxOf k ∈ fiber (fun slot => ids.getD slot 0)
        pool.participants k := mem_fiber.2 ⟨hidx k hmem, getD_idxOf hmem⟩
    rw [show fiber (fun slot => ids.getD slot 0) pool.participants k = []
      from hempty] at hat
    cases hat
  · intro k hk
    exact hadmits.fiber_eq k (hinOrder.used k hk)
  · exact concat_of_monotone hinOrder.ascending hadmits.getD_lt
  · intro k hk
    have hmem := hinOrder.used k hk
    have hpos : 0 < ids.count k := List.count_pos_iff.2 hmem
    have hfiber := hadmits.fiber_eq k hmem
    rw [← Nat.sub_add_cancel hpos] at hfiber
    exact flatMap_fiber_eq_range hinOrder.ascending hfiber
  · intro k hk
    have hmem := hinOrder.used k hk
    change firstOf ids k < _ ∧ ids.getD (firstOf ids k) 0 = k
    rw [hfirst k hmem]
    exact ⟨hidx k hmem, getD_idxOf hmem⟩

theorem inOrder_of_wellFormed (hadmits : Admits pool ids)
    (hwell : WellFormed (openScratch arithmetic pool ids) pool.participants) :
    InOrder pool ids := by
  constructor
  · intro k hk
    obtain ⟨slot, hslot⟩ := List.exists_mem_of_ne_nil _ (hwell.nonempty k hk)
    obtain ⟨hlt, hlabel⟩ := mem_fiber.1 hslot
    have hbound : slot < ids.length := by
      rwa [length_of_resolved hadmits.resolved]
    change ids.getD slot 0 = k at hlabel
    rw [← hlabel, List.getD_eq_getElem _ _ hbound]
    exact List.getElem_mem _
  · exact monotone_of_concat hadmits.getD_lt hwell.concat

/-- The layout is safe exactly when, wherever the gate is open, every id is
used and the ids never decrease along the slots. -/
theorem layoutSafe_iff (arithmetic : ShareArithmetic) (pool : PoolSlots) :
    LayoutSafe (initScanScratch arithmetic pool) pool.participants ↔
      ∀ ids, Admits pool ids → InOrder pool ids := by
  constructor
  · intro hsafe ids hadmits
    rw [initScanScratch_of_admits hadmits] at hsafe
    exact inOrder_of_wellFormed hadmits (hsafe rfl)
  · intro hinOrder huse
    obtain ⟨ids, hadmits⟩ := admits_of_useHierarchical huse
    rw [initScanScratch_of_admits hadmits]
    exact wellFormed_of_inOrder hadmits (hinOrder ids hadmits)

/-- Two slots on the first CCD of three and two on the last. -/
def spreadCpus : List UInt32 := [0, 1, 4, 5]

/-- Latencies of one nanosecond between all CPUs. -/
def flatMeasure (cpus : List UInt32) : List (List F64) × Bool :=
  (cpus.map fun _ => cpus.map fun _ => oneF64, true)

def flatArithmetic : LatencyArithmetic :=
  { bimodal := fun _ => false
    fastEdge := fun _ _ => true
    less := fun x y => x < y
    crossOverIntra := fun _ => some oneF64 }

/-- The probe of these CPUs: too few pairs for the histogram split, so the ids
are the indices of the shared-L3 groups. -/
def spreadProbe : Probe :=
  { valid := true
    matrix :=
      { cpus := spreadCpus
        matrix := (flatMeasure spreadCpus).1
        valid := true }
    clusters :=
      { clusterIdOfCpuIndex := [0, 0, 2, 2]
        numClusters := 3
        clusterDistanceNs :=
          [[oneF64, 0, oneF64], [0, 0, 0], [oneF64, 0, oneF64]] }
    maxCrossOverIntraRatio := oneF64 }

theorem spreadProbe_live :
    runCoherenceProbe flatArithmetic flatMeasure spreadCpus
      [[0, 1], [2, 3], [4, 5]] = some spreadProbe := by
  decide +kernel

example :
    deserializeCoherenceProbe (serializeCoherenceProbe spreadProbe)
      Probe.blank = (true, spreadProbe) := by
  decide +kernel

theorem four_slots : 4 < 2 ^ 32 := by decide

def spreadPool : PoolSlots :=
  { participants := 4
    participants_lt := four_slots
    ccdOfSlot := [0, 0, 2, 2]
    cpuId := fun slot => spreadCpus.getD slot 0
    probe := spreadProbe
    available := Available.live spreadProbe_live }

def roundUp : ShareArithmetic :=
  { aboveOne := fun _ => false
    llround := fun _ slots => 2 * slots }

/-- The gate opens although no slot has id 1. -/
theorem not_layoutSafe_spreadPool :
    ¬LayoutSafe (initScanScratch roundUp spreadPool)
      spreadPool.participants := by
  intro hsafe
  have huse : (initScanScratch roundUp spreadPool).useHierarchical = true := by
    decide +kernel
  have hgap : fiber (initScanScratch roundUp spreadPool).clusterIdOfSlot 4 1 =
      [] := by
    decide +kernel
  have hone : 1 < (initScanScratch roundUp spreadPool).numClusters := by
    decide +kernel
  exact (hsafe huse).nonempty 1 hone hgap

end Layout

section Engine

variable {scratch : ScanScratch} {participants : ℕ}

theorem WellFormed.first_succ (hwell : WellFormed scratch participants)
    {k : ℕ} (hk : k < scratch.numClusters) :
    (List.range (k + 1)).flatMap
        (fiber scratch.clusterIdOfSlot participants) =
      List.range (scratch.clusterFirstSlot k + scratch.clusterSlotCount k) := by
  rw [List.range_succ, List.flatMap_append, hwell.exclusive k hk,
    List.flatMap_singleton, hwell.interval k hk, List.range_add,
    List.range'_eq_map_range]

theorem WellFormed.slotCount_pos (hwell : WellFormed scratch participants)
    {k : ℕ} (hk : k < scratch.numClusters) :
    0 < scratch.clusterSlotCount k := by
  refine Nat.pos_of_ne_zero fun hzero => hwell.nonempty k hk ?_
  rw [hwell.interval k hk, hzero, List.range'_zero]

/-- One past the last slot of the clusters in front of `k`. -/
def boundary (scratch : ScanScratch) (participants k : ℕ) : ℕ :=
  if k < scratch.numClusters then scratch.clusterFirstSlot k
  else participants

theorem WellFormed.boundary_succ (hwell : WellFormed scratch participants)
    {k : ℕ} (hk : k < scratch.numClusters) :
    boundary scratch participants (k + 1) =
      scratch.clusterFirstSlot k + scratch.clusterSlotCount k := by
  have hsucc := hwell.first_succ hk
  unfold boundary
  split
  · rename_i hnext
    rw [hwell.exclusive (k + 1) hnext] at hsucc
    simpa using congrArg List.length hsucc
  · rename_i hlast
    have hend : k + 1 = scratch.numClusters := by omega
    rw [hend, hwell.concat] at hsucc
    simpa using congrArg List.length hsucc

theorem WellFormed.id_lt (hwell : WellFormed scratch participants) {slot : ℕ}
    (hslot : slot < participants) :
    scratch.clusterIdOfSlot slot < scratch.numClusters := by
  have hmem : slot ∈ (List.range scratch.numClusters).flatMap
      (fiber scratch.clusterIdOfSlot participants) := by
    rw [hwell.concat]
    exact List.mem_range.2 hslot
  obtain ⟨k, hk, hfiber⟩ := List.mem_flatMap.1 hmem
  rw [(mem_fiber.1 hfiber).2]
  exact List.mem_range.1 hk

theorem WellFormed.mem_interval (hwell : WellFormed scratch participants)
    {slot : ℕ} (hslot : slot < participants) :
    scratch.clusterFirstSlot (scratch.clusterIdOfSlot slot) ≤ slot ∧
      slot < boundary scratch participants
        (scratch.clusterIdOfSlot slot + 1) := by
  have hk := hwell.id_lt hslot
  have hmem : slot ∈ fiber scratch.clusterIdOfSlot participants
      (scratch.clusterIdOfSlot slot) := mem_fiber.2 ⟨hslot, rfl⟩
  rw [hwell.interval _ hk, List.mem_range'_1] at hmem
  rw [hwell.boundary_succ hk]
  exact hmem

/-- A well-formed scratch is a layout the hierarchical engine is verified
for. -/
def WellFormed.layout (hwell : WellFormed scratch participants) :
    Scan.Layout participants where
  numClusters := scratch.numClusters
  clusterFirstSlot := boundary scratch participants
  first_zero := by
    unfold boundary
    split
    · rename_i hpos
      simpa using (congrArg List.length (hwell.exclusive 0 hpos)).symm
    · rename_i hnone
      have hzero : scratch.numClusters = 0 := by omega
      have hconcat := hwell.concat
      rw [hzero] at hconcat
      simpa using (congrArg List.length hconcat).symm
  first_lt := by
    intro k hk
    rw [hwell.boundary_succ hk, boundary, if_pos hk]
    have := hwell.slotCount_pos hk
    omega
  first_end := if_neg (Nat.lt_irrefl _)
  clusterIdOfSlot := scratch.clusterIdOfSlot
  id_lt := fun _ hslot => hwell.id_lt hslot
  first_le := by
    intro slot hslot
    rw [boundary, if_pos (hwell.id_lt hslot)]
    exact (hwell.mem_interval hslot).1
  lt_next := fun _ hslot => (hwell.mem_interval hslot).2

end Engine

end Citor.HierarchicalLayout
