import Citor.Scan.LookbackScan

/-!
# The invariant of a lookback scan

The books say which tiles are claimed, by whom, and which are through; the
values say what flags, aggregates, prefixes and output hold for each of them.
A step of a slot touches the tile the slot holds and nothing else.
-/

namespace Citor.Lookback

open Citor.Interleaving
open Citor.IntervalFold
open Citor.DoneSlots

variable {T : Type*}

/-! ## Tiles and clusters -/

section Tiles

variable {shape : Shape}

theorem Shape.tileCursor_le (cluster : ℕ) :
    shape.tileCursor cluster ≤ shape.numTiles := by
  induction cluster with
  | zero => exact Nat.zero_le _
  | succ cluster ih =>
      simp only [Shape.tileCursor]
      split <;> omega

theorem Shape.tileCursor_le_succ (cluster : ℕ) :
    shape.tileCursor cluster ≤ shape.tileCursor (cluster + 1) := by
  simp only [Shape.tileCursor]
  split <;> omega

theorem Shape.tileCursor_mono {left right : ℕ} (hle : left ≤ right) :
    shape.tileCursor left ≤ shape.tileCursor right :=
  monotone_nat_of_le_succ shape.tileCursor_le_succ hle

/-- The last cluster takes what is left. -/
theorem Shape.tileCursor_numClusters :
    shape.tileCursor shape.clusters.numClusters = shape.numTiles := by
  obtain ⟨last, hlast⟩ :=
    Nat.exists_eq_succ_of_ne_zero (Nat.one_le_iff_ne_zero.mp
      shape.clusters.one_le)
  have hle := shape.tileCursor_le last
  rw [hlast, Nat.succ_eq_add_one, Shape.tileCursor, if_pos (.inl hlast.symm)]
  omega

/-- The tiles a cluster's counter hands out. -/
def Shape.Owns (shape : Shape) (cluster tile : ℕ) : Prop :=
  shape.clusterFirstTile cluster ≤ tile ∧ tile < shape.clusterLastTile cluster

theorem Shape.Owns.lt_numTiles {cluster tile : ℕ}
    (howns : shape.Owns cluster tile) : tile < shape.numTiles :=
  howns.2.trans_le (shape.tileCursor_le _)

theorem Shape.exists_owner {tile : ℕ} (htile : tile < shape.numTiles) :
    ∃ cluster < shape.clusters.numClusters, shape.Owns cluster tile := by
  rw [← shape.tileCursor_numClusters] at htile
  have haux : ∀ bound, tile < shape.tileCursor bound →
      ∃ cluster < bound, shape.Owns cluster tile := by
    intro bound hless
    induction bound with
    | zero => exact absurd hless (Nat.not_lt_zero tile)
    | succ bound ih =>
        by_cases hearlier : tile < shape.tileCursor bound
        · obtain ⟨cluster, hcluster, howns⟩ := ih hearlier
          exact ⟨cluster, by omega, howns⟩
        · exact ⟨bound, by omega, not_lt.mp hearlier, hless⟩
  exact haux _ htile

theorem Shape.Owns.unique {left right tile : ℕ} (hleft : shape.Owns left tile)
    (hright : shape.Owns right tile) : left = right := by
  unfold Shape.Owns Shape.clusterFirstTile Shape.clusterLastTile at *
  by_contra hne
  rcases lt_or_gt_of_ne hne with hless | hmore
  · have := shape.tileCursor_mono (show left + 1 ≤ right from hless)
    omega
  · have := shape.tileCursor_mono (show right + 1 ≤ left from hmore)
    omega

/-- The elements of a tile. -/
def Shape.InTile (shape : Shape) (tile index : ℕ) : Prop :=
  shape.tileLo tile ≤ index ∧ index < shape.tileHi tile

theorem Shape.tileLo_lt {tile : ℕ} (htile : tile < shape.numTiles) :
    shape.tileLo tile < shape.n := by
  unfold Shape.numTiles at htile
  have hpos : 0 < shape.tileElems := by
    by_contra hzero
    simp [Nat.eq_zero_of_not_pos hzero] at htile
  have hmul := (Nat.le_div_iff_mul_le hpos).mp (Nat.succ_le_of_lt htile)
  rw [Nat.succ_mul] at hmul
  unfold Shape.tileLo
  omega

theorem Shape.tileLo_lt_tileHi {tile : ℕ} (htile : tile < shape.numTiles) :
    shape.tileLo tile < shape.tileHi tile := by
  have hlo := shape.tileLo_lt htile
  have hpos : 0 < shape.tileElems := by
    by_contra hzero
    simp [Shape.numTiles, Nat.eq_zero_of_not_pos hzero] at htile
  unfold Shape.tileHi
  split <;> omega

theorem Shape.tileLo_succ (tile : ℕ) :
    shape.tileLo (tile + 1) = shape.tileLo tile + shape.tileElems := by
  unfold Shape.tileLo
  rw [Nat.succ_mul]

/-- A tile ends where the next one begins. -/
theorem Shape.tileHi_eq {tile next : ℕ} (hless : tile < next)
    (hnext : next < shape.numTiles) :
    shape.tileHi tile = shape.tileLo (tile + 1) := by
  have hlo : shape.tileLo (tile + 1) ≤ shape.tileLo next :=
    Nat.mul_le_mul_right _ hless
  have hlast := shape.tileLo_lt hnext
  rw [shape.tileLo_succ] at hlo ⊢
  unfold Shape.tileHi
  rw [if_neg (by omega)]

theorem Shape.tileHi_le_tileLo_succ (tile : ℕ) :
    shape.tileHi tile ≤ shape.tileLo (tile + 1) := by
  rw [shape.tileLo_succ]
  unfold Shape.tileHi
  split <;> omega

theorem Shape.tileHi_last (hpos : 0 < shape.numTiles) :
    shape.tileHi (shape.numTiles - 1) = shape.n := by
  have hlo := shape.tileLo_lt (show shape.numTiles - 1 < shape.numTiles by omega)
  have hpos' : 0 < shape.tileElems := by
    by_contra hzero
    simp [Shape.numTiles, Nat.eq_zero_of_not_pos hzero] at hpos
  have hcover : shape.n ≤ shape.tileLo (shape.numTiles - 1) + shape.tileElems := by
    have hsucc := shape.tileLo_succ (shape.numTiles - 1)
    rw [Nat.sub_add_cancel hpos] at hsucc
    rw [← hsucc]
    unfold Shape.tileLo Shape.numTiles
    have hbound : shape.n + shape.tileElems - 1 <
        (shape.n + shape.tileElems - 1) / shape.tileElems * shape.tileElems +
          shape.tileElems :=
      Nat.lt_div_mul_add hpos'
    omega
  unfold Shape.tileHi
  split <;> omega

/-- Tiles do not overlap. -/
theorem Shape.InTile.unique {left right index : ℕ}
    (hleft : shape.InTile left index) (hright : shape.InTile right index) :
    left = right := by
  have haux : ∀ {less more : ℕ}, less < more → shape.InTile less index →
      ¬ shape.InTile more index := by
    intro less more hlt hin hmore
    have hhi := shape.tileHi_le_tileLo_succ less
    have hlo : shape.tileLo (less + 1) ≤ shape.tileLo more :=
      Nat.mul_le_mul_right _ hlt
    exact absurd (hin.2.trans_le (hhi.trans (hlo.trans hmore.1)))
      (lt_irrefl index)
  by_contra hne
  rcases lt_or_gt_of_ne hne with hless | hmore
  · exact haux hless hleft hright
  · exact haux hmore hright hleft

/-- Every element lies in a tile. -/
theorem Shape.exists_inTile {index : ℕ} (hpos : 0 < shape.tileElems)
    (hindex : index < shape.n) :
    ∃ tile < shape.numTiles, shape.InTile tile index := by
  have hlo : index / shape.tileElems * shape.tileElems ≤ index :=
    Nat.div_mul_le_self _ _
  have hhi : index < index / shape.tileElems * shape.tileElems +
      shape.tileElems :=
    Nat.lt_div_mul_add hpos
  refine ⟨index / shape.tileElems, ?_, hlo, ?_⟩
  · unfold Shape.numTiles
    apply Nat.lt_of_succ_le
    rw [Nat.le_div_iff_mul_le hpos, Nat.succ_mul]
    omega
  · unfold Shape.tileHi Shape.tileLo
    split
    · exact hindex
    · exact hhi

theorem walkStart_le (tile : ℕ) : walkStart tile ≤ tile :=
  Nat.mod_le _ _

theorem walkStart_of_lt {tile start : ℕ} (hless : tile < walkStart start) :
    walkStart tile = tile :=
  Nat.mod_eq_of_lt (hless.trans (Nat.mod_lt _ (by positivity)))

end Tiles

/-! ## Values -/

section Values

variable (job : Job T)

/-- The caller's `prefix` and `identity` form a monoid. -/
abbrev Job.IsMonoid : Prop :=
  MonoidLaws job.prefixFn job.identity

/-- The serial fold of the input over `[lo, hi)`. -/
def Job.fold (lo hi : ℕ) : T :=
  intervalFold job.prefixFn job.identity job.input lo hi

/-- What a tile publishes as its aggregate. -/
def Job.aggregateOf (tile : ℕ) : T :=
  job.fold (job.shape.tileLo tile) (job.shape.tileHi tile)

/-- What a tile publishes as its exclusive prefix. -/
def Job.prefixOf (tile : ℕ) : T :=
  job.fold 0 (job.shape.tileLo (walkStart tile))

/-- What a tile leaves in the output. -/
def Job.finalOf (tile index : ℕ) : T :=
  job.prefixFn (job.prefixOf tile)
    (job.fold (job.shape.tileLo tile) (index + 1))

end Values

/-- The tile a slot is working on. -/
def Pc.tile : Pc T → Option ℕ
  | .loadFailed tile | .pass1 tile _ _ | .publishAggregate tile _
  | .walk tile _ _ | .stitch tile _ _ _ | .publishPrefix tile _
  | .pass2 tile _ _ | .capture _ tile | .giveUp tile => some tile
  | .pollToken | .serial _ _ | .claim | .left => none

def Event.tile : Event → Option ℕ
  | .claimed _ tile | .wrote _ tile => some tile
  | .threw _ | .captured _ => none

section Invariant

variable (job : Job T)

/-- A tile some cluster's counter has moved past. -/
def Claimed (state : State T) (tile : ℕ) : Prop :=
  ∃ cluster < job.shape.clusters.numClusters,
    job.shape.Owns cluster tile ∧ tile < state.clusterNextTile cluster

/-- The element still holds its input. -/
def Untouched (state : State T) (index : ℕ) : Prop :=
  state.readInput job index = job.input index

/-- The elements of a tile hold the tile's own inclusive scan. -/
def Local (state : State T) (tile : ℕ) : Prop :=
  ∀ index, job.shape.InTile tile index →
    state.out index = job.fold (job.shape.tileLo tile) (index + 1)

/-- A tile nobody works on any more. -/
def Finished (state : State T) (tile : ℕ) : Prop :=
  state.flag tile = .prefixAvailable ∧
    ∀ index, job.shape.InTile tile index →
      state.out index = job.finalOf tile index

/-- What a program counter says about the tile it works on. -/
def PcOk (state : State T) : Pc T → Prop
  | .loadFailed tile =>
      state.flag tile = .initialized ∧
        ∀ index, job.shape.InTile tile index → Untouched job state index
  | .pass1 tile index localTotal =>
      state.flag tile = .initialized ∧ job.shape.tileLo tile ≤ index ∧
        index ≤ job.shape.tileHi tile ∧
        localTotal = job.fold (job.shape.tileLo tile) index ∧
        (∀ other, job.shape.InTile tile other → other < index →
          state.out other = job.fold (job.shape.tileLo tile) (other + 1)) ∧
        ∀ other, job.shape.InTile tile other → index ≤ other →
          Untouched job state other
  | .publishAggregate tile localTotal =>
      state.flag tile = .initialized ∧ localTotal = job.aggregateOf tile ∧
        Local job state tile
  | .walk tile cursor accum =>
      state.flag tile = .aggregateAvailable ∧ tile ≠ 0 ∧ 0 < cursor ∧
        cursor ≤ walkStart tile ∧
        accum = job.fold (job.shape.tileLo cursor)
          (job.shape.tileLo (walkStart tile)) ∧
        Local job state tile
  | .stitch tile peer leftCombined accum =>
      state.flag tile = .aggregateAvailable ∧ tile ≠ 0 ∧
        peer < walkStart tile ∧
        leftCombined = job.fold 0 (job.shape.tileLo (peer + 1)) ∧
        accum = job.fold (job.shape.tileLo (peer + 1))
          (job.shape.tileLo (walkStart tile)) ∧
        Local job state tile
  | .publishPrefix tile myPrefix =>
      state.flag tile = .aggregateAvailable ∧ myPrefix = job.prefixOf tile ∧
        Local job state tile
  | .pass2 tile index myPrefix =>
      state.flag tile = .prefixAvailable ∧ tile ≠ 0 ∧
        myPrefix = job.prefixOf tile ∧ job.shape.tileLo tile ≤ index ∧
        index ≤ job.shape.tileHi tile ∧
        (∀ other, job.shape.InTile tile other → other < index →
          state.out other = job.finalOf tile other) ∧
        ∀ other, job.shape.InTile tile other → index ≤ other →
          state.out other = job.fold (job.shape.tileLo tile) (other + 1)
  | .claim | .left => True
  | .pollToken | .serial _ _ | .capture _ _ | .giveUp _ => False

/-- Who holds which tile, and what the trace says about it. -/
structure Books (trace : List Event) (state : State T) : Prop where
  held : ∀ slot < job.shape.participants, ∀ tile,
    (state.pc slot).tile = some tile →
      job.shape.Owns (job.shape.clusters.clusterIdOfSlot slot) tile ∧
        tile < state.clusterNextTile (job.shape.clusters.clusterIdOfSlot slot)
  unique : ∀ slot < job.shape.participants,
    ∀ other < job.shape.participants, ∀ tile,
      (state.pc slot).tile = some tile → (state.pc other).tile = some tile →
        slot = other
  started : ∀ cluster, job.shape.clusterFirstTile cluster ≤
    state.clusterNextTile cluster
  drained : ∀ slot < job.shape.participants,
    (state.pc slot).hasLeft = true →
      job.shape.clusterLastTile (job.shape.clusters.clusterIdOfSlot slot) ≤
        state.clusterNextTile (job.shape.clusters.clusterIdOfSlot slot)
  fresh : ∀ tile, ¬ Claimed job state tile →
    trace.filter (fun event => event.tile = some tile) = []
  working : ∀ slot < job.shape.participants, ∀ tile,
    (state.pc slot).tile = some tile →
      trace.filter (fun event => event.tile = some tile) =
        [.claimed slot tile]
  finished : ∀ tile, Claimed job state tile →
    (∀ slot < job.shape.participants, (state.pc slot).tile ≠ some tile) →
      ∃ slot < job.shape.participants,
        trace.filter (fun event => event.tile = some tile) =
          [.claimed slot tile, .wrote slot tile]

/-- What the flags, aggregates, prefixes and elements hold. -/
structure Values (state : State T) : Prop where
  slots : ∀ slot < job.shape.participants, PcOk job state (state.pc slot)
  fresh : ∀ tile < job.shape.numTiles, ¬ Claimed job state tile →
    state.flag tile = .initialized ∧
      ∀ index, job.shape.InTile tile index → Untouched job state index
  finished : ∀ tile, Claimed job state tile →
    (∀ slot < job.shape.participants, (state.pc slot).tile ≠ some tile) →
      Finished job state tile
  aggregates : ∀ tile, state.flag tile ≠ .initialized →
    state.aggregate tile = job.aggregateOf tile
  prefixes : ∀ tile, state.flag tile = .prefixAvailable →
    state.tilePrefix tile = job.prefixOf tile

/-- The invariant of a tiled scan in which nothing throws. -/
structure TiledInv (trace : List Event) (state : State T) : Prop where
  books : Books job trace state
  values : Values job state
  calm : state.firstException = none
  quiet : ∀ event ∈ trace, ∃ tile, event.tile = some tile
  outcome : ∀ outcome, state.outcome = some outcome →
    state.allLeft job = true ∧
      (state.stopRequested = false → outcome =
        .ok (job.prefixFn (state.tilePrefix (job.shape.numTiles - 1))
          (state.aggregate (job.shape.numTiles - 1))))

/-- The invariant of the paths that run on slot 0 alone. -/
structure SerialInv (trace : List Event) (state : State T) : Prop where
  alone : ∀ slot, slot ≠ 0 → state.pc slot = .left
  calm : trace = []
  pc :
    match state.pc 0 with
    | .pollToken => state.outcome = none ∧
        ∀ index, Untouched job state index
    | .serial index running => state.outcome = none ∧
        index ≤ job.shape.n ∧ running = job.fold 0 index ∧
        (∀ other < index, state.out other = job.fold 0 (other + 1)) ∧
        ∀ other, index ≤ other → Untouched job state other
    | .left => ∃ outcome, state.outcome = some outcome ∧
        (state.stopRequested = false →
          outcome = .ok (job.fold 0 job.shape.n) ∧
            ∀ index < job.shape.n,
              state.out index = job.fold 0 (index + 1))
    | _ => False

end Invariant

end Citor.Lookback
