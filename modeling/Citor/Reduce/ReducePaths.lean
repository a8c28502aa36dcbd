import Citor.Core.PairwiseTree
import Citor.Reduce.PackedPartials

/-!
# The four implementations of `parallelReduce`

The inline loop, the typed parallel engine with and without cancellation and
the runtime-hint parallel engine.  Each maps the chunks of the range to
partials and combines them with the same in-place step-doubling loop.  In the
engines with completion flags the ranks write distinct slots, so a run is
described by the order in which the blocks complete; in the typed engine
without cancellation the slots may share memory words, so a run lists the
accesses to them.

The source writes every engine twice, for the plain and for the Kahan
reduction; a `Mode` holds what differs.  Floating-point operations are opaque.
-/

namespace Citor.Reduce

open Citor.BlockPartition

/-! ## Chunks -/

def kReduceMaxChunks : ℕ := 64

/-- `reduceChunkSize`: a function of the length and the hint alone. -/
def reduceChunkSize (n hintChunk : ℕ) : ℕ :=
  if hintChunk ≠ 0 then hintChunk
  else if n ≤ kReduceMaxChunks then 1
  else ceilDiv n kReduceMaxChunks

theorem reduceChunkSize_pos {n : ℕ} (hn : 0 < n) (hintChunk : ℕ) :
    0 < reduceChunkSize n hintChunk := by
  unfold reduceChunkSize
  split
  · omega
  · split
    · exact Nat.one_pos
    · exact ceilDiv_pos hn

/-! ## Combining partials in place -/

section Combine

variable {A : Type*} (combine : A → A → A) (count : ℕ)

/-- The inner loop: `partials[i]` absorbs `partials[i + step]`. -/
def combinePass (step i : ℕ) (partials : ℕ → A) : ℕ → A :=
  if i + step < count ∧ 0 < step then
    combinePass step (i + step * 2)
      (Function.update partials i (combine (partials i) (partials (i + step))))
  else partials
termination_by count - i

/-- The outer loop: the step doubles until it spans all partials. -/
def combineUp (step : ℕ) (partials : ℕ → A) : ℕ → A :=
  if step < count ∧ 0 < step then
    combineUp (step * 2) (combinePass combine count step 0 partials)
  else partials
termination_by count - step

end Combine

/-- `pairwiseTreeCombine`. -/
def pairwiseTreeCombine {A : Type*} [Inhabited A] (partials : List A)
    (combine : A → A → A) : A :=
  match partials with
  | [] => default
  | _ :: _ =>
      combineUp combine partials.length 1 (fun i => partials.getD i default) 0

/-! ## Kahan pairs -/

structure KahanPair (Double : Type*) where
  sum : Double
  c : Double

section Kahan

variable {Double : Type*} [Add Double] [Sub Double] [Neg Double] [Zero Double]

instance : Inhabited (KahanPair Double) := ⟨⟨0, 0⟩⟩

def kahanAdd (a : KahanPair Double) (x : Double) : KahanPair Double :=
  let y := x - a.c
  let t := a.sum + y
  { sum := t, c := (t - a.sum) - y }

def kahanCombine (a b : KahanPair Double) : KahanPair Double :=
  let afterSum := kahanAdd a b.sum
  kahanAdd afterSum (-b.c)

end Kahan

/-- What the plain and the Kahan reduction do with a mapped chunk, two sibling
partials and the root. -/
structure Mode (T A : Type*) where
  leaf : T → A
  node : A → A → A
  root : A → T

/-- `FixedBlockOrder`: the caller's combine at every node. -/
def fixedBlock {T : Type*} (combine : T → T → T) : Mode T T where
  leaf := id
  node := combine
  root := id

/-- `KahanCompensated`: each chunk becomes a pair, nodes compensate. -/
def kahanCompensated {T Double : Type*} [Add Double] [Sub Double] [Neg Double]
    [Zero Double] (toDouble : T → Double) (ofDouble : Double → T) :
    Mode T (KahanPair Double) where
  leaf mapped := kahanAdd default (toDouble mapped)
  node := kahanCombine
  root pair := ofDouble pair.sum

/-! ## One call -/

/-- The arguments of a reduction. -/
structure Job (T : Type*) where
  first : ℕ
  last : ℕ
  hintChunk : ℕ
  init : T
  map : ℕ → ℕ → T
  combine : T → T → T

/-- What the stop token answers at each poll: on entry to the inline reducer
and in front of each block. -/
structure Polls where
  canStop : Bool
  atEntry : Bool
  atBlock : ℕ → Bool

/-- A token that is never triggered, with or without stop state. -/
def Polls.never (canStop : Bool) : Polls where
  canStop := canStop
  atEntry := false
  atBlock := fun _ => false

section Call

variable {T A : Type*} [Inhabited A] (mode : Mode T A) (job : Job T)

def Job.n : ℕ :=
  job.last - job.first

def Job.chunk : ℕ :=
  reduceChunkSize job.n job.hintChunk

def Job.nChunks : ℕ :=
  ceilDiv job.n job.chunk

/-- The mapped value of a chunk. -/
def Job.mapped (blockId : ℕ) : T :=
  job.map (blockLo job.first job.chunk blockId)
    (blockHi job.first job.last job.chunk blockId)

/-- A cancelled call throws `cancelled_value_exception` with a partial value:
`.error`. -/
abbrev Result (T : Type*) := Except T T

/-! ### The inline reducer -/

/-- The loop over the chunks; a triggered token breaks out of it. -/
def inlinePartials (polls : Polls) : ℕ → ℕ → List A → List A
  | 0, _, partials => partials
  | remaining + 1, b, partials =>
      if polls.canStop && polls.atBlock b then partials
      else inlinePartials polls remaining (b + 1)
        (partials ++ [mode.leaf (job.mapped b)])

/-- `runReduceInlineImpl`. -/
def runReduceInlineImpl (polls : Polls) : Result T :=
  if polls.atEntry then .error job.init
  else
    let partials := inlinePartials mode job polls job.nChunks 0 []
    if partials.isEmpty then .error job.init
    else
      let treeResult := pairwiseTreeCombine partials mode.node
      let combined := job.combine job.init (mode.root treeResult)
      if partials.length < job.nChunks then .error combined else .ok combined

/-! ### The typed engine without cancellation -/

/-- What the source's `T` is: `bool`, or another type. -/
inductive ElementType (T : Type*)
  | bool (asBool : T ≃ Bool)
  | other

/-- `std::vector<T>` is the packed `std::vector<bool>`. -/
def ElementType.packed {T : Type*} : ElementType T → Bool
  | .bool _ => true
  | .other => false

/-- How many partials share a memory word: none do in the scratch array that
holds up to `kReduceMaxChunks`, nor in a vector, but a packed vector has 64
bits to a word. -/
def partialsPerWord (packed : Bool) (nChunks : ℕ) : ℕ :=
  if nChunks ≤ kReduceMaxChunks then 1 else if packed then 64 else 1

/-- `runReduceParallel`, cancellation compiled out: the ranks access partials
that hold `scratch`, then the partials are combined in place. -/
def runReduceParallel (packed : Bool) (scratch : ℕ → A)
    (accesses : List Access) : Result T :=
  let partials := (Partials.initial scratch).run
    (partialsPerWord packed job.nChunks)
    (fun blockId => mode.leaf (job.mapped blockId)) accesses
  .ok (job.combine job.init
    (mode.root (combineUp mode.node job.nChunks 1 partials.slots 0)))

/-! ### The engines with completion flags -/

/-- `Slot` and `KahanSlot`. -/
structure Slot (A : Type*) where
  value : A
  done : Bool

/-- Collect the completed chunks, combine them and throw if one is missing. -/
def combineCompleted (partials : ℕ → Slot A) : Result T :=
  let flat := (List.range job.nChunks).filterMap fun i =>
    if (partials i).done then some (partials i).value else none
  let anyMissed := (List.range job.nChunks).any fun i => !(partials i).done
  if flat.isEmpty then .error job.init
  else
    let treeResult := pairwiseTreeCombine flat mode.node
    let combined := job.combine job.init (mode.root treeResult)
    if anyMissed then .error combined else .ok combined

/-- `runReduceParallel` with cancellation: the body receives its block id. -/
def runReduceParallelCancellable (scratch : ℕ → A) (order : List ℕ) :
    Result T :=
  combineCompleted mode job (order.foldl (fun partials blockId =>
    Function.update partials blockId ⟨mode.leaf (job.mapped blockId), true⟩)
    fun i => ⟨scratch i, false⟩)

/-- `runReduceParallelRuntime`: the body recovers its block id from `lo`. -/
def runReduceParallelRuntime (scratch : ℕ → A) (order : List ℕ) : Result T :=
  combineCompleted mode job (order.foldl (fun partials blockId =>
    let lo := blockLo job.first job.chunk blockId
    let hi := blockHi job.first job.last job.chunk blockId
    Function.update partials ((lo - job.first) / job.chunk)
      ⟨mode.leaf (job.map lo hi), true⟩) fun i => ⟨scratch i, false⟩)

/-! ### Completion orders -/

/-- The blocks a rank runs: it stops at the first poll that says so. -/
def rankBlocks (polls : Polls) (blocks : List ℕ) : List ℕ :=
  blocks.takeWhile fun blockId => !polls.atBlock blockId

/-- Any interleaving of what the ranks run. -/
def CompletionOrder (polls : Polls) (participants : ℕ)
    (blocksOf : ℕ → List ℕ) (order : List ℕ) : Prop :=
  order.Perm ((List.range participants).flatMap fun rank =>
    rankBlocks polls (blocksOf rank))

/-- The typed engine hands every rank a contiguous span. -/
def TypedOrder (polls : Polls) (participants : ℕ) (order : List ℕ) : Prop :=
  CompletionOrder polls participants
    (contiguousBlocks job.nChunks participants) order

/-- The runtime engine hands every rank a stride. -/
def RuntimeOrder (polls : Polls) (participants : ℕ) (order : List ℕ) : Prop :=
  CompletionOrder polls participants
    (staticBlocks job.nChunks participants) order

end Call

end Citor.Reduce
