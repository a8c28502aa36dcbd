import Mathlib

/-!
# The coherence probe and its blob

The record a pool keeps of its one-time latency probe, and the byte format in
which a probe is exported and imported.  A double is its bit pattern; scalars
are written in the little-endian order of the supported hosts.
-/

namespace Citor.CoherenceProbe

/-- A `double`, as its bit pattern. -/
abbrev F64 := UInt64

structure LatencyMatrix where
  cpus : List UInt32
  matrix : List (List F64)
  valid : Bool
  deriving DecidableEq, Repr

structure ClusterResult where
  clusterIdOfCpuIndex : List UInt32
  numClusters : UInt32
  clusterDistanceNs : List (List F64)
  deriving DecidableEq, Repr

structure Probe where
  valid : Bool
  matrix : LatencyMatrix
  clusters : ClusterResult
  maxCrossOverIntraRatio : F64
  deriving DecidableEq, Repr

/-- The bit pattern of `1.0`. -/
def oneF64 : F64 := 0x3FF0000000000000

/-- A default-constructed probe. -/
def Probe.blank : Probe :=
  { valid := false
    matrix := { cpus := [], matrix := [], valid := false }
    clusters :=
      { clusterIdOfCpuIndex := [], numClusters := 0, clusterDistanceNs := [] }
    maxCrossOverIntraRatio := oneF64 }

section Writing

/-- The bytes of a scalar of a given width. -/
def leBytes : ℕ → ℕ → List UInt8
  | 0, _ => []
  | width + 1, value => UInt8.ofNat value :: leBytes width (value / 256)

def writeU8 (value : Bool) : List UInt8 :=
  leBytes 1 value.toNat

def writeU32 (value : UInt32) : List UInt8 :=
  leBytes 4 value.toNat

def writeF64 (value : F64) : List UInt8 :=
  leBytes 8 value.toNat

/-- A length prefix followed by the elements. -/
def writeVector {α : Type*} (element : α → List UInt8) (values : List α) :
    List UInt8 :=
  leBytes 8 values.length ++ values.flatMap element

def coherenceProbeWriteU32Vector : List UInt32 → List UInt8 :=
  writeVector writeU32

def coherenceProbeWriteF64Vector : List F64 → List UInt8 :=
  writeVector writeF64

def coherenceProbeWriteF64Matrix : List (List F64) → List UInt8 :=
  writeVector coherenceProbeWriteF64Vector

/-- Spells `COHP`. -/
def kCoherenceProbeMagic : UInt32 := 0x434F4850

def kCoherenceProbeFormatVersion : UInt32 := 1

def serializeCoherenceProbe (probe : Probe) : List UInt8 :=
  writeU32 kCoherenceProbeMagic
    ++ writeU32 kCoherenceProbeFormatVersion
    ++ writeU8 probe.valid
    ++ writeF64 probe.maxCrossOverIntraRatio
    ++ writeU8 probe.matrix.valid
    ++ coherenceProbeWriteU32Vector probe.matrix.cpus
    ++ coherenceProbeWriteF64Matrix probe.matrix.matrix
    ++ coherenceProbeWriteU32Vector probe.clusters.clusterIdOfCpuIndex
    ++ writeU32 probe.clusters.numClusters
    ++ coherenceProbeWriteF64Matrix probe.clusters.clusterDistanceNs

end Writing

section Reading

/-- The cursor is the rest of the blob; a short read fails and, as every caller
returns at once, ends the parse. -/
abbrev Reader := StateT (List UInt8) Option

def leValue : List UInt8 → ℕ
  | [] => 0
  | byte :: bytes => byte.toNat + 256 * leValue bytes

/-- Copy a scalar out of the blob and advance. -/
def readPod (width : ℕ) : Reader ℕ := fun bytes =>
  if bytes.length < width then none
  else some (leValue (bytes.take width), bytes.drop width)

def readU8 : Reader Bool := do
  return (← readPod 1) ≠ 0

def readU32 : Reader UInt32 := do
  return UInt32.ofNat (← readPod 4)

def readF64 : Reader F64 := do
  return UInt64.ofNat (← readPod 8)

def readMany {α : Type} (element : Reader α) : ℕ → Reader (List α)
  | 0 => return []
  | count + 1 => do
    let value ← element
    let values ← readMany element count
    return value :: values

/-- A length-prefixed vector; the length is checked against the smallest
encoding of that many elements before anything is resized. -/
def readVector {α : Type} (size : ℕ) (element : Reader α) :
    Reader (List α) := do
  let count ← readPod 8
  let remaining ← get
  if remaining.length / size < count then failure
  else readMany element count

def coherenceProbeReadU32Vector : Reader (List UInt32) :=
  readVector 4 readU32

def coherenceProbeReadF64Vector : Reader (List F64) :=
  readVector 8 readF64

def coherenceProbeReadF64Matrix : Reader (List (List F64)) :=
  readVector 8 coherenceProbeReadF64Vector

/-- The fields behind the magic and the version, in blob order. -/
def readProbe : Reader Probe := do
  let magic ← readU32
  let version ← readU32
  if magic ≠ kCoherenceProbeMagic ∨ version ≠ kCoherenceProbeFormatVersion then
    failure
  let valid ← readU8
  let maxCrossOverIntraRatio ← readF64
  let matrixValid ← readU8
  let cpus ← coherenceProbeReadU32Vector
  let matrix ← coherenceProbeReadF64Matrix
  let clusterIdOfCpuIndex ← coherenceProbeReadU32Vector
  let numClusters ← readU32
  let clusterDistanceNs ← coherenceProbeReadF64Matrix
  return {
    valid
    matrix := { cpus, matrix, valid := matrixValid }
    clusters := { clusterIdOfCpuIndex, numClusters, clusterDistanceNs }
    maxCrossOverIntraRatio }

/-- The latency matrix is square over the CPUs, every CPU has a cluster id and
the distances are square over the clusters. -/
def Probe.Consistent (probe : Probe) : Prop :=
  probe.matrix.matrix.length = probe.matrix.cpus.length ∧
    (∀ row ∈ probe.matrix.matrix, row.length = probe.matrix.cpus.length) ∧
    probe.clusters.clusterIdOfCpuIndex.length = probe.matrix.cpus.length ∧
    probe.clusters.clusterDistanceNs.length =
      probe.clusters.numClusters.toNat ∧
    ∀ row ∈ probe.clusters.clusterDistanceNs,
      row.length = probe.clusters.numClusters.toNat

instance (probe : Probe) : Decidable probe.Consistent := by
  unfold Probe.Consistent
  infer_instance

/-- Whether the blob is accepted, and `out` after the call. -/
def deserializeCoherenceProbe (bytes : List UInt8) (out : Probe) :
    Bool × Probe :=
  match readProbe.run bytes with
  | none => (false, out)
  | some (probe, _) =>
    if probe.Consistent then (true, probe) else (false, out)

end Reading

/-- What the import path lets through. -/
theorem consistent_of_accepted {bytes : List UInt8} {out probe : Probe}
    (haccepted : deserializeCoherenceProbe bytes out = (true, probe)) :
    probe.Consistent := by
  unfold deserializeCoherenceProbe at haccepted
  split at haccepted
  · cases haccepted
  · split at haccepted
    · rename_i hconsistent
      cases haccepted
      exact hconsistent
    · cases haccepted

end Citor.CoherenceProbe
