import Citor.Topology.CoherenceProbe

/-!
# Clustering the probed CPUs by latency

`clusterByLatency` groups the CPUs of a latency matrix: connected components of
the fast edges where the latencies split in two, the shared-L3 groups of the
host otherwise.
-/

namespace Citor.LatencyClustering

open Citor.CoherenceProbe

/-- The floating-point computations of the clustering. -/
structure LatencyArithmetic where
  /-- The Otsu split of the latencies reaches the bimodality cutoff. -/
  bimodal : List F64 → Bool
  /-- A latency is positive and its logarithm is at most the Otsu threshold of
  the latencies. -/
  fastEdge : List F64 → F64 → Bool
  less : F64 → F64 → Bool
  /-- The largest cross-cluster distance over the largest intra-cluster one,
  where both are positive. -/
  crossOverIntra : List (List F64) → Option F64

/-- The pairs `i < j` in loop order. -/
def pairs (n : ℕ) : List (ℕ × ℕ) :=
  (List.range n).flatMap fun i =>
    (List.range' (i + 1) (n - (i + 1))).map fun j => (i, j)

def latency (mat : LatencyMatrix) (i j : ℕ) : F64 :=
  (mat.matrix.getD i []).getD j 0

section UnionFind

/-- `find` with path halving; `none` when the loop has not ended within the
fuel. -/
def find : ℕ → List ℕ → ℕ → Option (List ℕ × ℕ)
  | 0, _, _ => none
  | fuel + 1, parent, x =>
    if parent.getD x x = x then some (parent, x)
    else
      let halved := parent.set x (parent.getD (parent.getD x x) x)
      find fuel halved (halved.getD x x)

def unite (parent : List ℕ) (a b : ℕ) : Option (List ℕ) := do
  let (parent, rootA) ← find (parent.length + 1) parent a
  let (parent, rootB) ← find (parent.length + 1) parent b
  return if rootA ≠ rootB then parent.set rootA rootB else parent

/-- Unite the ends of every fast edge. -/
def connect (n : ℕ) (fast : ℕ → ℕ → Bool) : Option (List ℕ) :=
  (pairs n).foldlM (fun parent (i, j) =>
    if fast i j then unite parent i j else some parent) (List.range n)

/-- The compaction of roots to dense ids, after some CPUs. -/
structure Compaction where
  parent : List ℕ
  rootToCluster : List (Option ℕ)
  next : ℕ
  clusterId : List ℕ

def Compaction.assign (state : Compaction) (i : ℕ) : Option Compaction := do
  let (parent, r) ← find (state.parent.length + 1) state.parent i
  match state.rootToCluster.getD r none with
  | some cluster =>
    return { state with parent, clusterId := state.clusterId ++ [cluster] }
  | none =>
    return {
      parent
      rootToCluster := state.rootToCluster.set r (some state.next)
      next := state.next + 1
      clusterId := state.clusterId ++ [state.next] }

/-- The ids and the number of clusters of the union-find branch. -/
def componentIds (n : ℕ) (fast : ℕ → ℕ → Bool) : Option (List ℕ × ℕ) := do
  let parent ← connect n fast
  let final ← (List.range n).foldlM Compaction.assign
    { parent, rootToCluster := List.replicate n none, next := 0,
      clusterId := [] }
  return (final.clusterId, final.next)

end UnionFind

section SysfsPrior

/-- The last group that lists a CPU. -/
def sysfsCluster (sysfsPrior : List (List UInt32)) (cpu : UInt32) :
    Option ℕ :=
  sysfsPrior.zipIdx.foldl
    (fun found (group, k) => if cpu ∈ group then some k else found) none

/-- The ids by group; a CPU in no group gets the next orphan id. -/
def priorIds (sysfsPrior : List (List UInt32)) :
    ℕ → List UInt32 → List ℕ
  | _, [] => []
  | nextOrphanId, cpu :: cpus =>
    match sysfsCluster sysfsPrior cpu with
    | some k => k :: priorIds sysfsPrior nextOrphanId cpus
    | none => nextOrphanId :: priorIds sysfsPrior (nextOrphanId + 1) cpus

end SysfsPrior

/-- The latencies between two clusters, in loop order. -/
def bucket (mat : LatencyMatrix) (ids : List ℕ) (a b : ℕ) : List F64 :=
  (pairs ids.length).filterMap fun (i, j) =>
    if (ids.getD i 0 = a ∧ ids.getD j 0 = b) ∨
        (ids.getD i 0 = b ∧ ids.getD j 0 = a) then some (latency mat i j)
    else none

/-- The middle element after sorting; zero for an empty bucket. -/
def median (less : F64 → F64 → Bool) (values : List F64) : F64 :=
  (values.insertionSort fun x y => !less y x).getD (values.length / 2) 0

def clusterDistances (arithmetic : LatencyArithmetic) (mat : LatencyMatrix)
    (ids : List ℕ) (numClusters : ℕ) : List (List F64) :=
  (List.range numClusters).map fun a =>
    (List.range numClusters).map fun b =>
      median arithmetic.less (bucket mat ids a b)

/-- The pairs the histogram split needs before it is trusted. -/
def kMinOtsuPairs : ℕ := 10

/-- The ids and the number of clusters of a valid matrix. -/
def clusterIds (arithmetic : LatencyArithmetic) (mat : LatencyMatrix)
    (sysfsPrior : List (List UInt32)) : Option (List ℕ × ℕ) :=
  let n := mat.cpus.length
  let offDiag := (pairs n).map fun (i, j) => latency mat i j
  if kMinOtsuPairs ≤ offDiag.length ∧ arithmetic.bimodal offDiag then
    componentIds n fun i j => arithmetic.fastEdge offDiag (latency mat i j)
  else if sysfsPrior ≠ [] then
    let ids := priorIds sysfsPrior sysfsPrior.length mat.cpus
    some (ids, ids.foldl max 0 + 1)
  else some (List.replicate n 0, 1)

def clusterByLatency (arithmetic : LatencyArithmetic) (mat : LatencyMatrix)
    (sysfsPrior : List (List UInt32)) : Option ClusterResult :=
  let n := mat.cpus.length
  if !mat.valid ∨ n < 2 then
    if 0 < n then
      some {
        clusterIdOfCpuIndex := List.replicate n 0
        numClusters := 1
        clusterDistanceNs := [[0]] }
    else some Probe.blank.clusters
  else do
    let (ids, numClusters) ← clusterIds arithmetic mat sysfsPrior
    return {
      clusterIdOfCpuIndex := ids.map UInt32.ofNat
      numClusters := UInt32.ofNat numClusters
      clusterDistanceNs := clusterDistances arithmetic mat ids numClusters }

/-- The matrix of some CPUs, over the measured latencies and whether every
measurement succeeded. -/
def probeLatencyMatrix (measure : List UInt32 → List (List F64) × Bool)
    (cpus : List UInt32) : LatencyMatrix :=
  if cpus.length < 2 then Probe.blank.matrix
  else { cpus, matrix := (measure cpus).1, valid := (measure cpus).2 }

def runCoherenceProbe (arithmetic : LatencyArithmetic)
    (measure : List UInt32 → List (List F64) × Bool) (cpus : List UInt32)
    (sysfsPrior : List (List UInt32)) : Option Probe :=
  let matrix := probeLatencyMatrix measure cpus
  if cpus.length < 2 then some Probe.blank
  else if !matrix.valid then some { Probe.blank with matrix }
  else do
    let clusters ← clusterByLatency arithmetic matrix sysfsPrior
    return {
      valid := !clusters.clusterIdOfCpuIndex.isEmpty
      matrix
      clusters
      maxCrossOverIntraRatio :=
        (arithmetic.crossOverIntra clusters.clusterDistanceNs).getD oneF64 }

end Citor.LatencyClustering
