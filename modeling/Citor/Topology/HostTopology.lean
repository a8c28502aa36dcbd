import Citor.Core.MachineWord

/-!
# The host topology

`detectTopology` as a function of what the operating system reports: the
allowed CPUs, the SMT siblings and the L3 sharers of every CPU and the L3
sizes.  One CPU is picked per core, the picked CPUs are grouped by L3, and the
pinning order is read off the groups.
-/

namespace Citor.HostTopology

open Citor.MachineWord

/-- A partition of the ids below `count`, as the sorted block of every id. -/
structure IdPartition (count : ℕ) where
  block : ℕ → List ℕ
  sorted : ∀ id < count, (block id).Pairwise (· < ·)
  self_mem : ∀ id < count, id ∈ block id
  lt : ∀ id < count, ∀ other ∈ block id, other < count
  same : ∀ id < count, ∀ other ∈ block id, block other = block id

/-- What the operating system reports. -/
structure Host where
  logicalCount : ℕ
  logical_pos : 0 < logicalCount
  logical_lt : logicalCount < 2 ^ 32
  /-- The process affinity mask; all false when it cannot be read. -/
  affinityMask : ℕ → Bool
  /-- `topology/thread_siblings_list`. -/
  threadSiblings : IdPartition logicalCount
  /-- `cache/index3/shared_cpu_list`. -/
  sharedL3 : IdPartition logicalCount
  nested : ∀ cpu < logicalCount,
    ∀ sib ∈ threadSiblings.block cpu, sib ∈ sharedL3.block cpu
  /-- `cache/index3/size`, in KiB. -/
  l3Kib : ℕ → ℕ

structure Topology where
  physicalCores : List ℕ
  ccdGroups : List (List ℕ)
  ccdOfCpu : List ℕ
  preferredCcd : ℕ
  physicalCount : ℕ
  smtSiblingOfCpu : List ℕ
  deriving DecidableEq, Repr

section Allowed

/-- The affinity mask holds this many CPUs. -/
def cpuSetSize : ℕ := 1024

def allowedCpus (host : Host) : List ℕ :=
  let masked := (List.range (min host.logicalCount cpuSetSize)).filter
    host.affinityMask
  if masked = [] then List.range host.logicalCount else masked

end Allowed

section Cores

/-- The core pass, after some of the allowed CPUs. -/
structure CorePass where
  consumed : ℕ → Bool
  physicalCores : List ℕ
  smtSiblingOfCpu : List ℕ

/-- Record a sibling pair in both directions, the first sighting of each. -/
def stampSibling (cpu : ℕ) (table : List ℕ) (sib : ℕ) : List ℕ :=
  if table.length ≤ sib ∨ sib = cpu then table
  else
    let forward :=
      if table.getD cpu uint32Max = uint32Max then table.set cpu sib else table
    if forward.getD sib uint32Max = uint32Max then forward.set sib cpu else forward

def pickCore (host : Host) (pass : CorePass) (cpu : ℕ) : CorePass :=
  if host.logicalCount ≤ cpu ∨ pass.consumed cpu then pass
  else
    let siblings := host.threadSiblings.block cpu
    { consumed := fun other =>
        other = cpu || (other < host.logicalCount && other ∈ siblings) ||
          pass.consumed other
      physicalCores := pass.physicalCores ++ [cpu]
      smtSiblingOfCpu := siblings.foldl (stampSibling cpu)
        pass.smtSiblingOfCpu }

def pickCores (host : Host) : CorePass :=
  (allowedCpus host).foldl (pickCore host)
    { consumed := fun _ => false
      physicalCores := []
      smtSiblingOfCpu := List.replicate host.logicalCount uint32Max }

end Cores

section Ccds

/-- The grouping pass, after some of the physical cores. -/
structure CcdPass where
  assigned : ℕ → Bool
  ccdOfCpu : List ℕ
  ccdGroups : List (List ℕ)

/-- The physical cores that share the L3 of one, in list order. -/
def physicalInGroup (host : Host) (physicalCores : List ℕ) (cpu : ℕ) :
    List ℕ :=
  let listed := host.sharedL3.block cpu
  let shared := if listed = [] then [cpu] else listed
  let found := shared.filter (· ∈ physicalCores)
  if found = [] then [cpu] else found

def groupCore (host : Host) (physicalCores : List ℕ) (pass : CcdPass)
    (cpu : ℕ) : CcdPass :=
  if cpu < host.logicalCount ∧ pass.assigned cpu then pass
  else
    let group := physicalInGroup host physicalCores cpu
    { assigned := fun other =>
        (other < host.logicalCount && other ∈ group) || pass.assigned other
      ccdOfCpu := group.foldl
        (fun table physCpu => table.set physCpu pass.ccdGroups.length)
        pass.ccdOfCpu
      ccdGroups := pass.ccdGroups ++ [group] }

def groupCores (host : Host) (physicalCores : List ℕ) : CcdPass :=
  physicalCores.foldl (groupCore host physicalCores)
    { assigned := fun _ => false
      ccdOfCpu := List.replicate host.logicalCount 0
      ccdGroups := [] }

end Ccds

section PreferredCcd

/-- The L3 size of every CCD, read at its first CPU. -/
def l3KibOfCcd (host : Host) (ccdGroups : List (List ℕ)) : List ℕ :=
  ccdGroups.map fun group =>
    match group with
    | [] => 0
    | rep :: _ => host.l3Kib rep

/-- The largest size, the second largest and the index of the largest. -/
structure LargestL3 where
  largestKib : ℕ
  secondKib : ℕ
  largestIdx : ℕ

def LargestL3.add (best : LargestL3) : ℕ × ℕ → LargestL3
  | (kib, ccd) =>
    if best.largestKib < kib then
      { largestKib := kib, secondKib := best.largestKib, largestIdx := ccd }
    else if best.secondKib < kib then { best with secondKib := kib }
    else best

def largestL3 (l3Kib : List ℕ) : LargestL3 :=
  l3Kib.zipIdx.foldl LargestL3.add
    { largestKib := 0, secondKib := 0, largestIdx := 0 }

/-- The largest CCD that is not the boot CPU's. -/
def largestOther (l3Kib : List ℕ) (bspCcd : ℕ) : Option ℕ :=
  (l3Kib.zipIdx.foldl (fun (bestKib, bestIdx) (kib, ccd) =>
    if ccd = bspCcd then (bestKib, bestIdx)
    else if bestKib < kib ∨ (kib = bestKib ∧ bestIdx = none) then
      (kib, some ccd)
    else (bestKib, bestIdx)) (0, (none : Option ℕ))).2

def pickPreferredCcd (l3Kib : List ℕ) (ccdOfCpu : List ℕ) : ℕ :=
  let best := largestL3 l3Kib
  let asymmetricL3 := best.secondKib = 0 ∨
    word (best.secondKib * 3) < word (best.largestKib * 2)
  if asymmetricL3 then best.largestIdx
  else (largestOther l3Kib (ccdOfCpu.headD uint32Max)).getD best.largestIdx

end PreferredCcd

/-- A CCD's cores in pinning order: SMT-capable ones first, descending ids
within each half. -/
def pinningOrder (smtSiblingOfCpu group : List ℕ) : List ℕ :=
  let hasSibling := fun cpu => smtSiblingOfCpu.getD cpu uint32Max ≠ uint32Max
  group.reverse.filter (fun cpu => hasSibling cpu) ++
    group.reverse.filter (fun cpu => ¬hasSibling cpu)

def detectTopology (host : Host) : Topology :=
  let cores := pickCores host
  let physicalCores :=
    if cores.physicalCores = [] then allowedCpus host
    else cores.physicalCores
  let ccds := groupCores host physicalCores
  let reordered :=
    ccds.ccdGroups.flatMap (pinningOrder cores.smtSiblingOfCpu)
  { physicalCores :=
      if reordered.length = physicalCores.length then reordered
      else physicalCores
    ccdGroups := ccds.ccdGroups
    ccdOfCpu := ccds.ccdOfCpu
    preferredCcd :=
      pickPreferredCcd (l3KibOfCcd host ccds.ccdGroups) ccds.ccdOfCpu
    physicalCount := physicalCores.length
    smtSiblingOfCpu := cores.smtSiblingOfCpu }

end Citor.HostTopology
