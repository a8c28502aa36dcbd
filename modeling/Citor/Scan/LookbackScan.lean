import Citor.Core.Interleaving
import Citor.Core.IntervalFold
import Citor.Engine.DoneSlots

/-!
# The decoupled-lookback inclusive scan

One `inclusiveScan` call.  The range is cut into tiles; the slots of a cluster
claim tiles from the cluster's counter, scan them locally, publish the
aggregate, walk back over the predecessors for the exclusive prefix, publish
it and correct the tile in place.  A program counter stands in front of the
next atomic operation or call of the combiner.
-/

namespace Citor.Lookback

open Citor.Interleaving
open Citor.DoneSlots

/-! ## The shape of a call -/

/-- The clusters a pool's slots fall into; each has a slot. -/
structure Clusters (participants : ℕ) where
  numClusters : ℕ
  one_le : 1 ≤ numClusters
  clusterIdOfSlot : ℕ → ℕ
  id_lt : ∀ slot < participants, clusterIdOfSlot slot < numClusters
  occupied : ∀ cluster < numClusters, ∃ slot < participants,
    clusterIdOfSlot slot = cluster

/-- `m_scanClusterSlotCount`. -/
def Clusters.slotCount {participants : ℕ} (clusters : Clusters participants)
    (cluster : ℕ) : ℕ :=
  ((List.range participants).filter fun slot =>
    clusters.clusterIdOfSlot slot = cluster).length

/-- The single cluster of a pool that is not `multiCluster`. -/
def Clusters.single {participants : ℕ} (hpos : 0 < participants) :
    Clusters participants where
  numClusters := 1
  one_le := le_rfl
  clusterIdOfSlot := fun _ => 0
  id_lt := fun _ _ => Nat.one_pos
  occupied := fun cluster hcluster => ⟨0, hpos, by omega⟩

/-- The elements of a tile, from the size of `T`, the probed L2 and the length:
`clamp(perParticipantBytes, kMinTileBytes, l2Bytes) / sizeof(T)`. -/
def tileElemsFor (n sizeofT l2KibPerCore participants : ℕ) : ℕ :=
  let l2Bytes := if l2KibPerCore = 0 then 512 * 1024 else l2KibPerCore * 1024
  let perParticipantBytes := (n * sizeofT + participants - 1) / participants
  max (min perParticipantBytes l2Bytes) (64 * 1024) / sizeofT

/-- What a call depends on besides its values. -/
structure Shape where
  n : ℕ
  tileElems : ℕ
  participants : ℕ
  participants_pos : 0 < participants
  clusters : Clusters participants
  /-- `shouldFallThroughCrossArena()`. -/
  crossArena : Bool
  /-- Whether `out` is the input buffer. -/
  inPlace : Bool

/-- How a call runs. -/
inductive Path
  | empty
  /-- `T` is larger than the tile budget. -/
  | oversized
  | serial
  | tiled
  deriving DecidableEq, Repr

section Shape

variable (shape : Shape)

def Shape.numTiles : ℕ :=
  (shape.n + shape.tileElems - 1) / shape.tileElems

def Shape.path : Path :=
  if shape.n = 0 then .empty
  else if shape.tileElems = 0 then .oversized
  else if shape.participants ≤ 1 ∨ shape.numTiles = 1 ∨ shape.crossArena then
    .serial
  else .tiled

/-- A cluster's proportional share of the tiles, rounded up. -/
def Shape.kTiles (cluster : ℕ) : ℕ :=
  (shape.numTiles * shape.clusters.slotCount cluster +
    shape.participants - 1) / shape.participants

/-- The running `cursor` of the loop that hands tiles to clusters: the value
in front of iteration `cluster`. -/
def Shape.tileCursor : ℕ → ℕ
  | 0 => 0
  | cluster + 1 =>
      let cursor := tileCursor cluster
      if cluster + 1 = shape.clusters.numClusters ∨
          cursor + shape.kTiles cluster > shape.numTiles then
        cursor + (shape.numTiles - cursor)
      else cursor + shape.kTiles cluster

def Shape.clusterFirstTile (cluster : ℕ) : ℕ :=
  shape.tileCursor cluster

def Shape.clusterLastTile (cluster : ℕ) : ℕ :=
  shape.tileCursor (cluster + 1)

/-- The first element of a tile. -/
def Shape.tileLo (tile : ℕ) : ℕ :=
  tile * shape.tileElems

/-- One past the last element of a tile. -/
def Shape.tileHi (tile : ℕ) : ℕ :=
  if shape.tileLo tile + shape.tileElems > shape.n then shape.n
  else shape.tileLo tile + shape.tileElems

/-- The tile a lookback walk starts below: `static_cast<std::uint32_t>` of the
64-bit tile index. -/
def walkStart (tile : ℕ) : ℕ :=
  tile % 2 ^ 32

end Shape

/-- Where a call of the combiner may throw. -/
inductive Site
  | serial (index : ℕ)
  | pass1 (index : ℕ)
  /-- Folding the aggregate of `peer` into the walk of `tile`. -/
  | fold (tile peer : ℕ)
  /-- Combining prefix and aggregate of `peer`. -/
  | leftCombine (tile peer : ℕ)
  | stitch (tile peer : ℕ)
  | pass2 (index : ℕ)
  /-- The combine at the right edge, after the join. -/
  | total
  deriving DecidableEq, Repr

/-- One call: its shape, the caller's monoid, the input and the combiner calls
that throw.  `blank` is a value-initialized `T`. -/
structure Job (T : Type*) where
  shape : Shape
  identity : T
  prefixFn : T → T → T
  input : ℕ → T
  blank : T
  throws : Site → Bool

/-- `LookbackTile::Flag`. -/
inductive Flag
  | initialized
  | aggregateAvailable
  | prefixAvailable
  deriving DecidableEq, Repr

/-- Where a slot stands. -/
inductive Pc (T : Type*)
  /-- The serial path, about to load the token. -/
  | pollToken
  | serial (index : ℕ) (running : T)
  /-- About to claim a tile with `fetch_add`. -/
  | claim
  /-- About to load `firstException`. -/
  | loadFailed (tile : ℕ)
  | pass1 (tile index : ℕ) (localTotal : T)
  | publishAggregate (tile : ℕ) (localTotal : T)
  /-- In the lookback walk, `cursor` predecessors ahead. -/
  | walk (tile cursor : ℕ) (accum : T)
  | stitch (tile peer : ℕ) (leftCombined accum : T)
  | publishPrefix (tile : ℕ) (myPrefix : T)
  | pass2 (tile index : ℕ) (myPrefix : T)
  | capture (site : Site) (tile : ℕ)
  /-- A tile of a failed scan: publishes the identity. -/
  | giveUp (tile : ℕ)
  | left

inductive Event
  | claimed (slot tile : ℕ)
  /-- The tile's elements have their final values. -/
  | wrote (slot tile : ℕ)
  | threw (site : Site)
  | captured (site : Site)
  deriving DecidableEq, Repr

structure State (T : Type*) where
  pc : ℕ → Pc T
  clusterNextTile : ℕ → ℕ
  flag : ℕ → Flag
  aggregate : ℕ → T
  tilePrefix : ℕ → T
  out : ℕ → T
  firstException : Option Site
  stopRequested : Bool
  outcome : Option (Except Site T)

inductive Action
  | slot (slot : ℕ)
  /-- The dispatch join and what follows it. -/
  | join
  | requestStop
  deriving DecidableEq, Repr

section Step

variable {T : Type*} (job : Job T)

def State.setPc (state : State T) (slot : ℕ) (pc : Pc T) : State T :=
  { state with pc := Function.update state.pc slot pc }

def State.write (state : State T) (index : ℕ) (value : T) : State T :=
  { state with out := Function.update state.out index value }

def State.setFlag (state : State T) (tile : ℕ) (flag : Flag) : State T :=
  { state with flag := Function.update state.flag tile flag }

def State.setAggregate (state : State T) (tile : ℕ) (value : T) : State T :=
  { state with aggregate := Function.update state.aggregate tile value }

def State.setPrefix (state : State T) (tile : ℕ) (value : T) : State T :=
  { state with tilePrefix := Function.update state.tilePrefix tile value }

/-- The serial path is done: the call returns. -/
def State.return (state : State T) (slot : ℕ) (outcome : Except Site T) :
    State T :=
  { state.setPc slot .left with outcome := some outcome }

/-- `in[index]`. -/
def State.readInput (state : State T) (index : ℕ) : T :=
  if job.shape.inPlace then state.out index else job.input index

/-- The walk, once its cursor has moved to `cursor`. -/
def afterFold (tile cursor : ℕ) (accum : T) : Pc T :=
  if cursor = 0 then .publishPrefix tile accum else .walk tile cursor accum

/-- One step of `slot`.  A walk that finds its predecessor unpublished only
re-reads the flag; that is no step. -/
def stepSlot (state : State T) (slot : ℕ) :
    Option (State T × Option Event) :=
  match state.pc slot with
  | .pollToken =>
      if state.stopRequested then
        some (state.return slot (.ok job.identity), none)
      else some (state.setPc slot (.serial 0 job.identity), none)
  | .serial index running =>
      if index < job.shape.n then
        if job.throws (.serial index) then
          some (state.return slot (.error (.serial index)),
            some (.threw (.serial index)))
        else
          let running := job.prefixFn running (state.readInput job index)
          some ((state.write index running).setPc slot
            (.serial (index + 1) running), none)
      else some (state.return slot (.ok running), none)
  | .claim =>
      let cluster := job.shape.clusters.clusterIdOfSlot slot
      let tile := state.clusterNextTile cluster
      let claimed := { state with
        clusterNextTile :=
          Function.update state.clusterNextTile cluster (tile + 1) }
      if job.shape.clusterLastTile cluster ≤ tile then
        some (claimed.setPc slot .left, none)
      else some (claimed.setPc slot (.loadFailed tile),
        some (.claimed slot tile))
  | .loadFailed tile =>
      if state.firstException.isSome then
        some (state.setPc slot (.giveUp tile), none)
      else
        some (state.setPc slot
          (.pass1 tile (job.shape.tileLo tile) job.identity), none)
  | .pass1 tile index localTotal =>
      if index < job.shape.tileHi tile then
        if job.throws (.pass1 index) then
          some (state.setPc slot (.capture (.pass1 index) tile),
            some (.threw (.pass1 index)))
        else
          let localTotal := job.prefixFn localTotal (state.readInput job index)
          some ((state.write index localTotal).setPc slot
            (.pass1 tile (index + 1) localTotal), none)
      else some (state.setPc slot (.publishAggregate tile localTotal), none)
  | .publishAggregate tile localTotal =>
      some (((state.setAggregate tile localTotal).setFlag tile
          .aggregateAvailable).setPc slot
        (if tile = 0 then .publishPrefix tile job.identity
          else afterFold tile (walkStart tile) job.identity), none)
  | .walk tile cursor accum =>
      let peer := cursor - 1
      match state.flag peer with
      | .prefixAvailable =>
          if job.throws (.leftCombine tile peer) then
            some (state.setPc slot (.capture (.leftCombine tile peer) tile),
              some (.threw (.leftCombine tile peer)))
          else
            some (state.setPc slot (.stitch tile peer
              (job.prefixFn (state.tilePrefix peer) (state.aggregate peer))
              accum), none)
      | .aggregateAvailable =>
          if job.throws (.fold tile peer) then
            some (state.setPc slot (.capture (.fold tile peer) tile),
              some (.threw (.fold tile peer)))
          else
            some (state.setPc slot (afterFold tile peer
              (job.prefixFn (state.aggregate peer) accum)), none)
      | .initialized => none
  | .stitch tile peer leftCombined accum =>
      if job.throws (.stitch tile peer) then
        some (state.setPc slot (.capture (.stitch tile peer) tile),
          some (.threw (.stitch tile peer)))
      else
        some (state.setPc slot
          (.publishPrefix tile (job.prefixFn leftCombined accum)), none)
  | .publishPrefix tile myPrefix =>
      let published := (state.setPrefix tile myPrefix).setFlag tile
        .prefixAvailable
      if tile = 0 then
        some (published.setPc slot .claim, some (.wrote slot tile))
      else some (published.setPc slot
        (.pass2 tile (job.shape.tileLo tile) myPrefix), none)
  | .pass2 tile index myPrefix =>
      if index < job.shape.tileHi tile then
        if job.throws (.pass2 index) then
          some (state.setPc slot (.capture (.pass2 index) tile),
            some (.threw (.pass2 index)))
        else
          some ((state.write index
              (job.prefixFn myPrefix (state.out index))).setPc slot
            (.pass2 tile (index + 1) myPrefix), none)
      else some (state.setPc slot .claim, some (.wrote slot tile))
  | .capture site tile =>
      some ({ state with
        firstException :=
          captureFirstException state.firstException site }.setPc slot
        (.giveUp tile), some (.captured site))
  | .giveUp tile =>
      some (((state.setPrefix tile job.identity).setFlag tile
        .prefixAvailable).setPc slot .claim, none)
  | .left => none

def Pc.hasLeft : Pc T → Bool
  | .left => true
  | _ => false

def State.allLeft (state : State T) : Bool :=
  (List.range job.shape.participants).all fun slot => (state.pc slot).hasLeft

/-- What follows the dispatch: `rethrow`, the token, the right edge. -/
def joinOutcome (state : State T) : Except Site T :=
  let last := job.shape.numTiles - 1
  match state.firstException with
  | some site => .error site
  | none =>
      if state.stopRequested then .ok job.identity
      else if job.throws .total then .error .total
      else .ok (job.prefixFn (state.tilePrefix last) (state.aggregate last))

/-- The call as a machine. -/
def inclusiveScan : Machine (State T) Action Event where
  step state
    | .slot slot =>
        if slot < job.shape.participants then stepSlot job state slot else none
    | .join =>
        if state.outcome.isNone ∧ state.allLeft job then
          some ({ state with outcome := some (joinOutcome job state) }, none)
        else none
    | .requestStop => some ({ state with stopRequested := true }, none)

/-- The state the call starts in.  `scratch` is what `out` holds if it is a
buffer of its own. -/
def start (scratch : ℕ → T) : State T where
  pc := fun slot =>
    match job.shape.path with
    | .empty => .left
    | .oversized => if slot = 0 then .serial 0 job.identity else .left
    | .serial => if slot = 0 then .pollToken else .left
    | .tiled => .claim
  clusterNextTile := job.shape.clusterFirstTile
  flag := fun _ => .initialized
  aggregate := fun _ => job.blank
  tilePrefix := fun _ => job.blank
  out := if job.shape.inPlace then job.input else scratch
  firstException := none
  stopRequested := false
  outcome := if job.shape.path = .empty then some (.ok job.identity) else none

end Step

end Citor.Lookback
