import Citor.Topology.ProbeCodec

/-!
# The bounds-checked cursor

The reader as it works on memory: an offset into the blob, a latched failure
and the accesses it makes.  It follows the readers of the format step by step,
so what holds of the format holds of the code, and no access leaves the blob.
-/

namespace Citor.ProbeReader

open Citor.CoherenceProbe
open Citor.ProbeCodec

/-- What the reader does. -/
inductive Access
  /-- Copies `width` bytes from `offset`. -/
  | read (offset width : ℕ)
  /-- Resizes a vector to `count` elements of at least `size` bytes each, with
  the cursor at `offset`. -/
  | resize (offset count size : ℕ)
  deriving DecidableEq, Repr

/-- The bytes read lie in the blob, the bytes of the elements fit in its
rest. -/
def Access.Within (length : ℕ) : Access → Prop
  | .read offset width => offset + width ≤ length
  | .resize offset count size => offset + count * size ≤ length

structure CoherenceProbeReader where
  cur : ℕ
  ok : Bool
  accesses : List Access

def CoherenceProbeReader.remainingBytes (bytes : List UInt8)
    (reader : CoherenceProbeReader) : ℕ :=
  bytes.length - reader.cur

/-- A read that may fail and leaves the reader in a new state. -/
abbrev Cursor (α : Type) : Type :=
  CoherenceProbeReader → Option α × CoherenceProbeReader

instance : Monad Cursor where
  pure value := fun reader => (some value, reader)
  bind first next := fun reader =>
    match first reader with
    | (none, after) => (none, after)
    | (some value, after) => next value after

/-- Latch the failure. -/
def Cursor.fail {α : Type} : Cursor α := fun reader =>
  (none, { reader with ok := false })

section Reading

variable (bytes : List UInt8)

def memcpy (offset width : ℕ) : List UInt8 :=
  (List.range width).map fun i => bytes.getD (offset + i) 0

def readPod (width : ℕ) : Cursor ℕ := fun reader =>
  if !reader.ok || reader.remainingBytes bytes < width then Cursor.fail reader
  else (some (leValue (memcpy bytes reader.cur width)),
    { reader with
      cur := reader.cur + width
      accesses := reader.accesses ++ [.read reader.cur width] })

def readU8 : Cursor Bool := do
  return (← readPod bytes 1) ≠ 0

def readU32 : Cursor UInt32 := do
  return UInt32.ofNat (← readPod bytes 4)

def readF64 : Cursor F64 := do
  return UInt64.ofNat (← readPod bytes 8)

def readMany {α : Type} (element : Cursor α) : ℕ → Cursor (List α)
  | 0 => return []
  | count + 1 => do
    let value ← element
    let values ← readMany element count
    return value :: values

/-- The length check and the resize. -/
def resize (count size : ℕ) : Cursor Unit := fun reader =>
  if reader.remainingBytes bytes / size < count then Cursor.fail reader
  else (some (), { reader with
    accesses := reader.accesses ++ [.resize reader.cur count size] })

def readVector {α : Type} (size : ℕ) (element : Cursor α) :
    Cursor (List α) := do
  let count ← readPod bytes 8
  resize bytes count size
  readMany element count

def coherenceProbeReadU32Vector : Cursor (List UInt32) :=
  readVector bytes 4 (readU32 bytes)

def coherenceProbeReadF64Vector : Cursor (List F64) :=
  readVector bytes 8 (readF64 bytes)

def coherenceProbeReadF64Matrix : Cursor (List (List F64)) :=
  readVector bytes 8 (coherenceProbeReadF64Vector bytes)

def readProbe : Cursor Probe := do
  let magic ← readU32 bytes
  let version ← readU32 bytes
  if magic ≠ kCoherenceProbeMagic ∨ version ≠ kCoherenceProbeFormatVersion then
    Cursor.fail
  else
    let valid ← readU8 bytes
    let maxCrossOverIntraRatio ← readF64 bytes
    let matrixValid ← readU8 bytes
    let cpus ← coherenceProbeReadU32Vector bytes
    let matrix ← coherenceProbeReadF64Matrix bytes
    let clusterIdOfCpuIndex ← coherenceProbeReadU32Vector bytes
    let numClusters ← readU32 bytes
    let clusterDistanceNs ← coherenceProbeReadF64Matrix bytes
    return {
      valid
      matrix := { cpus, matrix, valid := matrixValid }
      clusters := { clusterIdOfCpuIndex, numClusters, clusterDistanceNs }
      maxCrossOverIntraRatio }

/-- What a call returns, leaves in `out` and did on the way. -/
structure Outcome where
  accepted : Bool
  out : Probe
  accesses : List Access

def deserialize (out : Probe) : Outcome :=
  match readProbe bytes { cur := 0, ok := true, accesses := [] } with
  | (none, reader) =>
      { accepted := false, out, accesses := reader.accesses }
  | (some probe, reader) =>
      if reader.ok ∧ probe.Consistent then
        { accepted := true, out := probe, accesses := reader.accesses }
      else { accepted := false, out, accesses := reader.accesses }

end Reading

/-! ## The cursor follows the format -/

section Following

variable {bytes : List UInt8} {α β : Type}

def AllWithin (bytes : List UInt8) (reader : CoherenceProbeReader) : Prop :=
  ∀ access ∈ reader.accesses, access.Within bytes.length

/-- A reader that has not failed. -/
structure Sound (bytes : List UInt8) (reader : CoherenceProbeReader) :
    Prop where
  ok : reader.ok = true
  cur_le : reader.cur ≤ bytes.length
  within : AllWithin bytes reader

/-- On the rest of the blob the cursor does what the format says. -/
structure Follows (bytes : List UInt8) (cursor : Cursor α)
    (format : Reader α) : Prop where
  rejects : ∀ reader, Sound bytes reader →
    format (bytes.drop reader.cur) = none →
    (cursor reader).1 = none ∧ AllWithin bytes (cursor reader).2
  reads : ∀ reader, Sound bytes reader → ∀ value rest,
    format (bytes.drop reader.cur) = some (value, rest) →
    ∃ after, cursor reader = (some value, after) ∧ Sound bytes after ∧
      bytes.drop after.cur = rest

theorem Follows.pure (value : α) :
    Follows bytes (pure value : Cursor α) (pure value) where
  rejects := by
    intro reader _ hnone
    cases hnone
  reads := by
    intro reader hsound read rest hread
    cases hread
    exact ⟨reader, rfl, hsound, rfl⟩

theorem Follows.fail : Follows bytes (Cursor.fail : Cursor α) failure where
  rejects := by
    intro reader hsound _
    exact ⟨rfl, hsound.within⟩
  reads := by
    intro reader _ read rest hread
    cases hread

theorem bind_of_none {first : Cursor α} {next : α → Cursor β}
    {reader : CoherenceProbeReader} (hnone : (first reader).1 = none) :
    (first >>= next) reader = (none, (first reader).2) := by
  change (match first reader with
    | (none, after) => (none, after)
    | (some value, after) => next value after) = _
  cases hfirst : first reader with
  | mk value after =>
      rw [hfirst] at hnone
      obtain rfl : value = none := hnone
      rfl

theorem bind_of_some {first : Cursor α} {next : α → Cursor β}
    {reader after : CoherenceProbeReader} {value : α}
    (hsome : first reader = (some value, after)) :
    (first >>= next) reader = next value after := by
  change (match first reader with
    | (none, after) => (none, after)
    | (some value, after) => next value after) = _
  rw [hsome]

theorem Follows.bind {first : Cursor α} {next : α → Cursor β}
    {format : Reader α} {rest : α → Reader β}
    (hfirst : Follows bytes first format)
    (hnext : ∀ value, Follows bytes (next value) (rest value)) :
    Follows bytes (first >>= next) (format >>= rest) where
  rejects := by
    intro reader hsound hnone
    rw [reader_bind] at hnone
    cases hread : format (bytes.drop reader.cur) with
    | none =>
        obtain ⟨hfails, hwithin⟩ := hfirst.rejects reader hsound hread
        rw [bind_of_none hfails]
        exact ⟨rfl, hwithin⟩
    | some read =>
        obtain ⟨value, left⟩ := read
        obtain ⟨after, hstep, hafter, hleft⟩ :=
          hfirst.reads reader hsound value left hread
        rw [hread, Option.bind_some, ← hleft] at hnone
        rw [bind_of_some hstep]
        exact (hnext value).rejects after hafter hnone
  reads := by
    intro reader hsound value left hread
    rw [reader_bind] at hread
    obtain ⟨⟨middle, between⟩, hmiddle, hlast⟩ :=
      Option.bind_eq_some_iff.1 hread
    obtain ⟨after, hstep, hafter, hleft⟩ :=
      hfirst.reads reader hsound middle between hmiddle
    rw [bind_of_some hstep]
    rw [← hleft] at hlast
    exact (hnext middle).reads after hafter value left hlast

theorem memcpy_eq {offset width : ℕ} (hfits : offset + width ≤ bytes.length) :
    memcpy bytes offset width = (bytes.drop offset).take width := by
  apply List.ext_getElem?
  intro i
  by_cases hi : i < width
  · rw [memcpy, List.getElem?_map, List.getElem?_range hi, List.getElem?_take,
      if_pos hi, List.getElem?_drop, List.getElem?_eq_getElem (by omega),
      Option.map_some, List.getD_eq_getElem _ _ (by omega)]
  · rw [List.getElem?_eq_none (by simp [memcpy]; omega),
      List.getElem?_eq_none (by simp; omega)]

theorem AllWithin.append {reader : CoherenceProbeReader} {access : Access}
    (hwithin : AllWithin bytes reader) (haccess : access.Within bytes.length) :
    ∀ other ∈ reader.accesses ++ [access], other.Within bytes.length := by
  intro other hother
  rcases List.mem_append.1 hother with hold | hnew
  · exact hwithin other hold
  · exact List.mem_singleton.1 hnew ▸ haccess

theorem readPod_follows (width : ℕ) :
    Follows bytes (readPod bytes width) (CoherenceProbe.readPod width) where
  rejects := by
    intro reader hsound hnone
    have hshort : reader.remainingBytes bytes < width := by
      unfold CoherenceProbe.readPod at hnone
      split at hnone
      next hlt => rwa [List.length_drop] at hlt
      next => cases hnone
    rw [readPod, if_pos (by simp [hshort])]
    exact ⟨rfl, hsound.within⟩
  reads := by
    intro reader hsound value rest hread
    unfold CoherenceProbe.readPod at hread
    split at hread
    · cases hread
    next hlong =>
      rw [List.length_drop] at hlong
      have hcur := hsound.cur_le
      have hfits : reader.cur + width ≤ bytes.length := by omega
      cases hread
      refine ⟨{ reader with
        cur := reader.cur + width
        accesses := reader.accesses ++ [.read reader.cur width] }, ?_,
        ⟨hsound.ok, hfits, hsound.within.append hfits⟩, ?_⟩
      · have henough : ¬reader.remainingBytes bytes < width := by
          rw [CoherenceProbeReader.remainingBytes]
          omega
        rw [readPod, if_neg (by simp [hsound.ok, henough]), memcpy_eq hfits]
      · rw [List.drop_drop]

theorem readU8_follows :
    Follows bytes (readU8 bytes) CoherenceProbe.readU8 :=
  (readPod_follows 1).bind fun _ => .pure _

theorem readU32_follows :
    Follows bytes (readU32 bytes) CoherenceProbe.readU32 :=
  (readPod_follows 4).bind fun _ => .pure _

theorem readF64_follows :
    Follows bytes (readF64 bytes) CoherenceProbe.readF64 :=
  (readPod_follows 8).bind fun _ => .pure _

theorem readMany_follows {element : Cursor α} {format : Reader α}
    (helement : Follows bytes element format) (count : ℕ) :
    Follows bytes (readMany element count)
      (CoherenceProbe.readMany format count) := by
  induction count with
  | zero => exact .pure _
  | succ count ih => exact helement.bind fun _ => ih.bind fun _ => .pure _

/-- The length check in the format. -/
def checkLength (count size : ℕ) : Reader Unit := do
  if (← get).length / size < count then failure

theorem resize_follows {count size : ℕ} (hpos : 0 < size) :
    Follows bytes (resize bytes count size) (checkLength count size) where
  rejects := by
    intro reader hsound hnone
    have hshort : reader.remainingBytes bytes / size < count := by
      by_contra hfits
      change (if (bytes.drop reader.cur).length / size < count then failure
        else pure () : Reader Unit) (bytes.drop reader.cur) = none at hnone
      have hlength : (bytes.drop reader.cur).length =
          reader.remainingBytes bytes := List.length_drop
      rw [hlength, if_neg hfits] at hnone
      cases hnone
    rw [resize, if_pos hshort]
    exact ⟨rfl, hsound.within⟩
  reads := by
    intro reader hsound value rest hread
    change (if (bytes.drop reader.cur).length / size < count then failure
      else pure () : Reader Unit) (bytes.drop reader.cur) = _ at hread
    have hlength : (bytes.drop reader.cur).length =
        reader.remainingBytes bytes := List.length_drop
    rw [hlength] at hread
    split at hread
    · cases hread
    next hfits =>
      cases hread
      have hcur := hsound.cur_le
      have hbound : count * size ≤ bytes.length - reader.cur :=
        (Nat.le_div_iff_mul_le hpos).1 (Nat.le_of_not_lt hfits)
      have hinside : Access.Within bytes.length
          (.resize reader.cur count size) := by
        change reader.cur + count * size ≤ bytes.length
        omega
      refine ⟨{ reader with
        accesses := reader.accesses ++ [.resize reader.cur count size] }, ?_,
        ⟨hsound.ok, hcur, hsound.within.append hinside⟩, rfl⟩
      rw [resize, if_neg hfits]

theorem readVector_eq {size : ℕ} (format : Reader α) :
    CoherenceProbe.readVector size format = (do
      let count ← CoherenceProbe.readPod 8
      checkLength count size
      CoherenceProbe.readMany format count) := by
  funext bytes
  rw [CoherenceProbe.readVector, reader_bind, reader_bind]
  cases CoherenceProbe.readPod 8 bytes with
  | none => rfl
  | some read =>
      obtain ⟨count, left⟩ := read
      rw [Option.bind_some, Option.bind_some, reader_bind]
      change (if left.length / size < count then failure
        else CoherenceProbe.readMany format count : Reader (List α)) left =
        ((if left.length / size < count then failure
          else pure () : Reader Unit) left).bind _
      split
      · rfl
      · rfl

theorem readVector_follows {size : ℕ} {element : Cursor α}
    {format : Reader α} (hpos : 0 < size)
    (helement : Follows bytes element format) :
    Follows bytes (readVector bytes size element)
      (CoherenceProbe.readVector size format) := by
  rw [readVector_eq]
  exact (readPod_follows 8).bind fun count =>
    (resize_follows hpos).bind fun _ => readMany_follows helement count

theorem readU32Vector_follows :
    Follows bytes (coherenceProbeReadU32Vector bytes)
      CoherenceProbe.coherenceProbeReadU32Vector :=
  readVector_follows (by decide) readU32_follows

theorem readF64Matrix_follows :
    Follows bytes (coherenceProbeReadF64Matrix bytes)
      CoherenceProbe.coherenceProbeReadF64Matrix :=
  readVector_follows (by decide)
    (readVector_follows (by decide) readF64_follows)

theorem readProbe_follows :
    Follows bytes (readProbe bytes) CoherenceProbe.readProbe := by
  refine readU32_follows.bind fun magic => readU32_follows.bind fun version => ?_
  split
  · exact Follows.fail
  · exact readU8_follows.bind fun _ => readF64_follows.bind fun _ =>
      readU8_follows.bind fun _ => readU32Vector_follows.bind fun _ =>
      readF64Matrix_follows.bind fun _ => readU32Vector_follows.bind fun _ =>
      readU32_follows.bind fun _ => readF64Matrix_follows.bind fun _ => .pure _

/-- The code accepts and delivers what the format does, inside the blob. -/
theorem deserialize_follows (bytes : List UInt8) (out : Probe) :
    ((deserialize bytes out).accepted, (deserialize bytes out).out) =
        deserializeCoherenceProbe bytes out ∧
      ∀ access ∈ (deserialize bytes out).accesses,
        access.Within bytes.length := by
  have hstart : Sound bytes { cur := 0, ok := true, accesses := [] } :=
    ⟨rfl, Nat.zero_le _, fun access haccess => by cases haccess⟩
  have hfollows : Follows bytes (readProbe bytes)
      CoherenceProbe.readProbe := readProbe_follows
  unfold deserialize deserializeCoherenceProbe
  have hrun : StateT.run CoherenceProbe.readProbe bytes =
    CoherenceProbe.readProbe bytes := rfl
  rw [hrun]
  cases hformat : CoherenceProbe.readProbe bytes with
  | none =>
      obtain ⟨hnone, hwithin⟩ := hfollows.rejects _ hstart hformat
      cases hread : readProbe bytes { cur := 0, ok := true, accesses := [] } with
      | mk result reader =>
          rw [hread] at hnone hwithin
          obtain rfl : result = none := hnone
          exact ⟨rfl, hwithin⟩
  | some read =>
      obtain ⟨probe, rest⟩ := read
      obtain ⟨after, hread, hsound, _⟩ :=
        hfollows.reads _ hstart probe rest hformat
      rw [hread]
      by_cases hconsistent : probe.Consistent
      · simp only [hsound.ok, hconsistent, and_self, if_true]
        exact ⟨trivial, hsound.within⟩
      · simp only [hconsistent, and_false, if_false]
        exact ⟨trivial, hsound.within⟩

end Following

/-! ## Round trip and rejection -/

/-- A vector of a consistent probe is as long as its CPU list or its cluster
count. -/
theorem representable_of_consistent {probe : Probe}
    (hconsistent : probe.Consistent)
    (hcpus : probe.matrix.cpus.length < 2 ^ 64) : Representable probe := by
  obtain ⟨hmatrix, hrows, hids, hdistances, hdistanceRows⟩ := hconsistent
  have hclusters := probe.clusters.numClusters.toNat_lt
  refine ⟨hcpus, hmatrix ▸ hcpus, fun row hrow => hrows row hrow ▸ hcpus,
    hids ▸ hcpus, by omega, fun row hrow => ?_⟩
  rw [hdistanceRows row hrow]
  omega

section Deserializing

variable {bytes rest : List UInt8} {out probe : Probe}

theorem deserialize_of_none
    (hread : CoherenceProbe.readProbe bytes = none) :
    deserializeCoherenceProbe bytes out = (false, out) := by
  unfold deserializeCoherenceProbe
  rw [StateT.run, hread]

theorem deserialize_of_some
    (hread : CoherenceProbe.readProbe bytes = some (probe, rest)) :
    deserializeCoherenceProbe bytes out =
      if probe.Consistent then (true, probe) else (false, out) := by
  unfold deserializeCoherenceProbe
  rw [StateT.run, hread]

theorem out_of_rejected
    (hrejected : (deserializeCoherenceProbe bytes out).1 = false) :
    (deserializeCoherenceProbe bytes out).2 = out := by
  cases hread : CoherenceProbe.readProbe bytes with
  | none => rw [deserialize_of_none hread]
  | some read =>
      obtain ⟨probe, rest⟩ := read
      rw [deserialize_of_some hread] at hrejected ⊢
      split at hrejected
      · cases hrejected
      next hinconsistent => rw [if_neg hinconsistent]

theorem accepted_eq :
    (deserialize bytes out).accepted =
      (deserializeCoherenceProbe bytes out).1 :=
  congrArg Prod.fst (deserialize_follows bytes out).1

theorem out_eq :
    (deserialize bytes out).out = (deserializeCoherenceProbe bytes out).2 :=
  congrArg Prod.snd (deserialize_follows bytes out).1

end Deserializing

/-- The blob format: consistent probes come back, every byte string is read
inside its bounds, and nothing but an accepted consistent probe is written. -/
structure BlobSound : Prop where
  round_trip : ∀ probe : Probe, probe.Consistent →
    probe.matrix.cpus.length < 2 ^ 64 → ∀ out,
    (deserialize (serializeCoherenceProbe probe) out).accepted = true ∧
      (deserialize (serializeCoherenceProbe probe) out).out = probe
  in_bounds : ∀ bytes out, ∀ access ∈ (deserialize bytes out).accesses,
    access.Within bytes.length
  untouched : ∀ bytes out, (deserialize bytes out).accepted = false →
    (deserialize bytes out).out = out
  consistent : ∀ bytes out, (deserialize bytes out).accepted = true →
    (deserialize bytes out).out.Consistent
  cut_off : ∀ probe, Representable probe → ∀ blob more,
    serializeCoherenceProbe probe = blob ++ more → more ≠ [] → ∀ out,
    (deserialize blob out).accepted = false

theorem blobSound : BlobSound := by
  constructor
  · intro probe hconsistent hcpus out
    have hread := readProbe_readsBack
      (representable_of_consistent hconsistent hcpus) []
    rw [List.append_nil] at hread
    rw [accepted_eq, out_eq, deserialize_of_some hread, if_pos hconsistent]
    exact ⟨rfl, rfl⟩
  · exact fun bytes out => (deserialize_follows bytes out).2
  · intro bytes out hrejected
    rw [accepted_eq] at hrejected
    rw [out_eq, out_of_rejected hrejected]
  · intro bytes out haccepted
    rw [accepted_eq] at haccepted
    rw [out_eq]
    exact consistent_of_accepted (Prod.ext haccepted rfl)
  · intro probe hfits blob more hsplit hmore out
    rw [accepted_eq, deserialize_of_none (readProbe_cut_off hfits hsplit hmore)]

end Citor.ProbeReader
