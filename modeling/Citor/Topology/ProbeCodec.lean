import Citor.Topology.CoherenceProbe

/-!
# Reading a probe back

Every reader undoes its writer in front of any further bytes, and what a reader
accepts it still accepts when more bytes follow.  The two facts together give
the round trip and the rejection of every cut-off blob.
-/

namespace Citor.ProbeCodec

open Citor.CoherenceProbe

theorem reader_bind {α β : Type} (reader : Reader α) (next : α → Reader β)
    (bytes : List UInt8) :
    (reader >>= next) bytes =
      (reader bytes).bind fun read => next read.1 read.2 := rfl

theorem reader_pure {α : Type} (value : α) (bytes : List UInt8) :
    (pure value : Reader α) bytes = some (value, bytes) := rfl

/-! ## Reading back -/

/-- In front of any bytes the reader undoes the encoding of the value. -/
def ReadsBack {α : Type} (reader : Reader α) (encode : α → List UInt8)
    (value : α) : Prop :=
  ∀ rest, reader (encode value ++ rest) = some (value, rest)

theorem ReadsBack.bind {α β : Type} {reader : Reader α}
    {encode : α → List UInt8} {value : α} (hreads : ReadsBack reader encode value)
    (next : α → Reader β) (rest : List UInt8) :
    (reader >>= next) (encode value ++ rest) = next value rest := by
  rw [reader_bind, hreads rest, Option.bind_some]

theorem length_leBytes (width value : ℕ) :
    (leBytes width value).length = width := by
  induction width generalizing value with
  | zero => rfl
  | succ width ih => rw [leBytes, List.length_cons, ih]

theorem leValue_leBytes {width value : ℕ} (hlt : value < 256 ^ width) :
    leValue (leBytes width value) = value := by
  induction width generalizing value with
  | zero =>
      rw [pow_zero] at hlt
      rw [leBytes, leValue]
      omega
  | succ width ih =>
      have hrest : value / 256 < 256 ^ width := by
        rw [pow_succ] at hlt
        exact Nat.div_lt_of_lt_mul (by omega)
      have hbyte : (UInt8.ofNat value).toNat = value % 256 := by
        simp
      rw [leBytes, leValue, ih hrest, hbyte]
      exact Nat.mod_add_div value 256

theorem readPod_leBytes {width value : ℕ} (hlt : value < 256 ^ width)
    (rest : List UInt8) :
    readPod width (leBytes width value ++ rest) = some (value, rest) := by
  have hlength := length_leBytes width value
  rw [readPod, if_neg (by rw [List.length_append]; omega),
    List.take_left' hlength, List.drop_left' hlength, leValue_leBytes hlt]

theorem readU8_readsBack (value : Bool) : ReadsBack readU8 writeU8 value := by
  intro rest
  rw [readU8, reader_bind, writeU8,
    readPod_leBytes (by cases value <;> decide), Option.bind_some, reader_pure]
  cases value <;> rfl

theorem readU32_readsBack (value : UInt32) :
    ReadsBack readU32 writeU32 value := by
  intro rest
  rw [readU32, reader_bind, writeU32, readPod_leBytes value.toNat_lt,
    Option.bind_some, reader_pure]
  simp

theorem readF64_readsBack (value : F64) : ReadsBack readF64 writeF64 value := by
  intro rest
  rw [readF64, reader_bind, writeF64, readPod_leBytes value.toNat_lt,
    Option.bind_some, reader_pure]
  simp

section Vectors

variable {α : Type} {element : Reader α} {encode : α → List UInt8}

theorem readMany_readsBack {values : List α}
    (hreads : ∀ value ∈ values, ReadsBack element encode value)
    (rest : List UInt8) :
    readMany element values.length (values.flatMap encode ++ rest) =
      some (values, rest) := by
  induction values with
  | nil => rfl
  | cons value values ih =>
      rw [List.flatMap_cons, List.append_assoc, List.length_cons, readMany,
        (hreads value List.mem_cons_self).bind, reader_bind,
        ih fun other hother => hreads other (List.mem_cons_of_mem _ hother)]
      rfl

theorem le_length_flatMap {size : ℕ} (values : List α)
    (hsize : ∀ value ∈ values, size ≤ (encode value).length) :
    values.length * size ≤ (values.flatMap encode).length := by
  induction values with
  | nil => simp
  | cons value values ih =>
      have hhead := hsize value List.mem_cons_self
      have htail := ih fun other hother =>
        hsize other (List.mem_cons_of_mem _ hother)
      rw [List.flatMap_cons, List.length_append, List.length_cons,
        Nat.add_mul, Nat.one_mul]
      omega

/-- The length check lets every honest vector through. -/
theorem readVector_readsBack {size : ℕ} {values : List α} (hpos : 0 < size)
    (hsize : ∀ value ∈ values, size ≤ (encode value).length)
    (hword : values.length < 2 ^ 64)
    (hreads : ∀ value ∈ values, ReadsBack element encode value) :
    ReadsBack (readVector size element) (writeVector encode) values := by
  intro rest
  have hfits : ¬((values.flatMap encode ++ rest).length / size <
      values.length) := by
    rw [not_lt, Nat.le_div_iff_mul_le hpos, List.length_append]
    exact (le_length_flatMap values hsize).trans (Nat.le_add_right _ _)
  rw [readVector, writeVector, List.append_assoc, reader_bind,
    readPod_leBytes (by omega), Option.bind_some, reader_bind]
  change (if (values.flatMap encode ++ rest).length / size < values.length
    then failure else readMany element values.length : Reader (List α)) _ = _
  rw [if_neg hfits]
  exact readMany_readsBack hreads rest

end Vectors

theorem readU32Vector_readsBack {values : List UInt32}
    (hword : values.length < 2 ^ 64) :
    ReadsBack coherenceProbeReadU32Vector coherenceProbeWriteU32Vector
      values :=
  readVector_readsBack (by decide)
    (fun value _ => (length_leBytes 4 value.toNat).ge) hword
    fun value _ => readU32_readsBack value

theorem readF64Vector_readsBack {values : List F64}
    (hword : values.length < 2 ^ 64) :
    ReadsBack coherenceProbeReadF64Vector coherenceProbeWriteF64Vector
      values :=
  readVector_readsBack (by decide)
    (fun value _ => (length_leBytes 8 value.toNat).ge) hword
    fun value _ => readF64_readsBack value

theorem readF64Matrix_readsBack {rows : List (List F64)}
    (hword : rows.length < 2 ^ 64) (hrows : ∀ row ∈ rows, row.length < 2 ^ 64) :
    ReadsBack coherenceProbeReadF64Matrix coherenceProbeWriteF64Matrix
      rows := by
  refine readVector_readsBack (by decide) (fun row _ => ?_) hword
    fun row hrow => readF64Vector_readsBack (hrows row hrow)
  rw [coherenceProbeWriteF64Vector, writeVector, List.length_append,
    length_leBytes]
  exact Nat.le_add_right _ _

/-- Every vector of the probe has a 64-bit length. -/
structure Representable (probe : Probe) : Prop where
  cpus : probe.matrix.cpus.length < 2 ^ 64
  matrix : probe.matrix.matrix.length < 2 ^ 64
  matrix_rows : ∀ row ∈ probe.matrix.matrix, row.length < 2 ^ 64
  ids : probe.clusters.clusterIdOfCpuIndex.length < 2 ^ 64
  distances : probe.clusters.clusterDistanceNs.length < 2 ^ 64
  distance_rows : ∀ row ∈ probe.clusters.clusterDistanceNs,
    row.length < 2 ^ 64

theorem readProbe_readsBack {probe : Probe} (hfits : Representable probe) :
    ReadsBack readProbe serializeCoherenceProbe probe := by
  intro rest
  simp only [serializeCoherenceProbe, List.append_assoc]
  rw [readProbe, (readU32_readsBack _).bind, (readU32_readsBack _).bind]
  simp only [ne_eq, not_true_eq_false, or_self, if_false]
  rw [(readU8_readsBack _).bind, (readF64_readsBack _).bind,
    (readU8_readsBack _).bind, (readU32Vector_readsBack hfits.cpus).bind,
    (readF64Matrix_readsBack hfits.matrix hfits.matrix_rows).bind,
    (readU32Vector_readsBack hfits.ids).bind, (readU32_readsBack _).bind,
    (readF64Matrix_readsBack hfits.distances hfits.distance_rows).bind]
  rfl

/-! ## Reading in front of more bytes -/

/-- What the reader accepts it accepts in front of any further bytes. -/
def Extends {α : Type} (reader : Reader α) : Prop :=
  ∀ bytes value rest, reader bytes = some (value, rest) →
    ∀ more, reader (bytes ++ more) = some (value, rest ++ more)

section Extends

variable {α β : Type}

theorem Extends.pure (value : α) : Extends (pure value : Reader α) := by
  intro bytes read rest hread more
  cases hread
  rfl

theorem Extends.failure : Extends (failure : Reader α) := by
  intro bytes read rest hread
  cases hread

theorem Extends.bind {reader : Reader α} {next : α → Reader β}
    (hreader : Extends reader) (hnext : ∀ value, Extends (next value)) :
    Extends (reader >>= next) := by
  intro bytes value rest hread more
  rw [reader_bind] at hread ⊢
  obtain ⟨⟨middle, left⟩, hfirst, hsecond⟩ := Option.bind_eq_some_iff.1 hread
  rw [hreader bytes middle left hfirst more, Option.bind_some]
  exact hnext middle left value rest hsecond more

theorem readPod_extends (width : ℕ) : Extends (readPod width) := by
  intro bytes value rest hread more
  unfold readPod at hread ⊢
  split at hread
  · cases hread
  next hlong =>
    cases hread
    rw [if_neg (by rw [List.length_append]; omega),
      List.take_append_of_le_length (by omega),
      List.drop_append_of_le_length (by omega)]

theorem readU8_extends : Extends readU8 :=
  (readPod_extends 1).bind fun _ => .pure _

theorem readU32_extends : Extends readU32 :=
  (readPod_extends 4).bind fun _ => .pure _

theorem readF64_extends : Extends readF64 :=
  (readPod_extends 8).bind fun _ => .pure _

theorem readMany_extends {element : Reader α} (helement : Extends element)
    (count : ℕ) : Extends (readMany element count) := by
  induction count with
  | zero => exact .pure _
  | succ count ih => exact helement.bind fun _ => ih.bind fun _ => .pure _

/-- More bytes only relax the length check. -/
theorem readVector_extends {size : ℕ} {element : Reader α}
    (helement : Extends element) : Extends (readVector size element) := by
  refine (readPod_extends 8).bind fun count => ?_
  intro bytes value rest hread more
  change (if bytes.length / size < count then failure
    else readMany element count : Reader (List α)) _ = _ at hread
  change (if (bytes ++ more).length / size < count then failure
    else readMany element count : Reader (List α)) _ = _
  split at hread
  · cases hread
  next hfits =>
    have hmore : bytes.length / size ≤ (bytes ++ more).length / size :=
      Nat.div_le_div_right (by simp)
    rw [if_neg (by omega)]
    exact readMany_extends helement count bytes value rest hread more

theorem readU32Vector_extends : Extends coherenceProbeReadU32Vector :=
  readVector_extends readU32_extends

theorem readF64Matrix_extends : Extends coherenceProbeReadF64Matrix :=
  readVector_extends (readVector_extends readF64_extends)

theorem readProbe_extends : Extends readProbe := by
  refine readU32_extends.bind fun magic => readU32_extends.bind fun version => ?_
  split
  · exact Extends.failure.bind fun _ => readU8_extends.bind fun _ =>
      readF64_extends.bind fun _ => readU8_extends.bind fun _ =>
      readU32Vector_extends.bind fun _ => readF64Matrix_extends.bind fun _ =>
      readU32Vector_extends.bind fun _ => readU32_extends.bind fun _ =>
      readF64Matrix_extends.bind fun _ => .pure _
  · exact readU8_extends.bind fun _ =>
      readF64_extends.bind fun _ => readU8_extends.bind fun _ =>
      readU32Vector_extends.bind fun _ => readF64Matrix_extends.bind fun _ =>
      readU32Vector_extends.bind fun _ => readU32_extends.bind fun _ =>
      readF64Matrix_extends.bind fun _ => .pure _

end Extends

/-- A cut-off serialization is not read. -/
theorem readProbe_cut_off {probe : Probe} (hfits : Representable probe)
    {blob more : List UInt8}
    (hsplit : serializeCoherenceProbe probe = blob ++ more)
    (hmore : more ≠ []) : readProbe blob = none := by
  have hwhole := readProbe_readsBack hfits []
  rw [List.append_nil, hsplit] at hwhole
  cases hread : readProbe blob with
  | none => rfl
  | some read =>
      obtain ⟨other, rest⟩ := read
      have hextended := readProbe_extends blob other rest hread more
      rw [hwhole] at hextended
      have hnil : rest ++ more = [] := by
        simpa using (congrArg Prod.snd (Option.some.inj hextended)).symm
      exact absurd (List.append_eq_nil_iff.1 hnil).2 hmore

end Citor.ProbeCodec
