import Citor.Core.Interleaving
import Citor.Engine.BlockPartition
import Citor.Engine.DoneSlots

/-!
# Partition runners

The loops that run a dispatch's blocks on one rank.  All of them ask a claim
function for the next block id; they differ in the claim, in which of the
exception and cancellation checks they make, and in the fast path for
dispatches with at most one block per rank.  `nextBlock` is the one word the
ranks share while they claim.
-/

namespace Citor.BlockRunners

open Interleaving BlockPartition DoneSlots

/-- The two balances with a claim function. -/
inductive Balance
  | staticUniform
  | dynamicChunked
  deriving DecidableEq, Repr

/-- What the runners read of a `JobDescriptor`. -/
structure JobDescriptor where
  first : ℕ
  last : ℕ
  chunk : ℕ
  blockCount : ℕ
  participants : ℕ
  participants_pos : 0 < participants

/-! ## Claims -/

/-- `BlockClaim<B>::next`: the claimed id, and the counter after the claim.
`none` is `kNoBlock`, both as the previous id and as the answer. -/
def BlockClaim.next (balance : Balance) (desc : JobDescriptor) (rank : ℕ)
    (prevIdx : Option ℕ) (nextBlock : ℕ) : Option ℕ × ℕ :=
  match balance with
  | .staticUniform =>
      (nextStaticBlock desc.blockCount desc.participants rank prevIdx,
        nextBlock)
  | .dynamicChunked =>
      if prevIdx = none ∧ rank < desc.blockCount ∧
          rank < desc.participants then
        (some rank, nextBlock)
      else if desc.blockCount ≤ desc.participants then
        (none, nextBlock)
      else
        (if nextBlock < desc.blockCount then some nextBlock else none,
          nextBlock + 1)

/-- `nextTypedBlock<B>`: the claim of the typed runners, which pass the block
count and the participants they have at hand. -/
def nextTypedBlock (balance : Balance) (blockCount participants rank : ℕ)
    (prevIdx : Option ℕ) (nextBlock : ℕ) : Option ℕ × ℕ :=
  match balance with
  | .staticUniform =>
      (nextStaticBlock blockCount participants rank prevIdx, nextBlock)
  | .dynamicChunked =>
      if prevIdx = none ∧ rank < blockCount ∧ rank < participants then
        (some rank, nextBlock)
      else if blockCount ≤ participants then
        (none, nextBlock)
      else
        (if nextBlock < blockCount then some nextBlock else none,
          nextBlock + 1)

theorem BlockClaim.next_eq_nextTypedBlock (balance : Balance)
    (desc : JobDescriptor) :
    BlockClaim.next balance desc =
      nextTypedBlock balance desc.blockCount desc.participants := by
  cases balance <;> rfl

/-- `runSingleRankBlockTyped` as a claim: the rank's own block, once. -/
def singleRankBlock (blockCount rank : ℕ) : Option ℕ → Option ℕ
  | none => if blockCount ≤ rank then none else some rank
  | some _ => none

/-- The `for` loop of `runContiguousRankPartitionTypedCached` as a claim: from
the begin of the rank's span up to its end. -/
def nextSpanBlock (blockCount participants rank : ℕ)
    (prevIdx : Option ℕ) : Option ℕ :=
  let (begin, stop) := contiguousRankBlockSpan blockCount participants rank
  let blockId := prevIdx.elim begin (· + 1)
  if blockId < stop then some blockId else none

/-! ## Runners -/

/-- The runners of the two balances. -/
inductive Runner
  | runPartition
  | runPartitionTyped
  | runPartitionTypedHinted
  | typedWorkerEntry
  deriving DecidableEq, Repr

/-- How a dispatch shares its blocks: the ranks of a balance may run different
runners, since slot 0, the workers and a cold-collapsing producer enter through
different ones; `runContiguousRankPartitionTypedCached` is shared by all. -/
inductive Share
  | balanced (balance : Balance) (runner : ℕ → Runner)
  | contiguous

/-- A dispatch: the descriptor, the runners, and what the hints and the body's
type decide at compile time. -/
structure Dispatch where
  desc : JobDescriptor
  share : Share
  cancellationActive : Bool
  bodyNoexcept : Bool
  /-- Whether `body(lo, hi)` throws on a block. -/
  throws : ℕ → Bool
  noexcept_throws : bodyNoexcept = true → ∀ blockId, throws blockId = false

/-- The next block id of the rank's runner, and the counter afterwards. -/
def Dispatch.nextBlockId (dispatch : Dispatch) (rank : ℕ)
    (prevIdx : Option ℕ) (nextBlock : ℕ) : Option ℕ × ℕ :=
  let desc := dispatch.desc
  match dispatch.share with
  | .contiguous =>
      (nextSpanBlock desc.blockCount desc.participants rank prevIdx, nextBlock)
  | .balanced balance runner =>
      match runner rank with
      | .runPartition => BlockClaim.next balance desc rank prevIdx nextBlock
      | .runPartitionTyped =>
          nextTypedBlock balance desc.blockCount desc.participants rank
            prevIdx nextBlock
      | .runPartitionTypedHinted | .typedWorkerEntry =>
          if desc.blockCount ≤ desc.participants then
            (singleRankBlock desc.blockCount rank prevIdx, nextBlock)
          else
            nextTypedBlock balance desc.blockCount desc.participants rank
              prevIdx nextBlock

/-- A run of the body on `[lo, hi)`. -/
structure BlockRun where
  rank : ℕ
  blockId : ℕ
  lo : ℕ
  hi : ℕ
  deriving DecidableEq, Repr

/-- `lo` and `hi`, computed alike by every runner. -/
def JobDescriptor.blockRange (desc : JobDescriptor) (blockId : ℕ) : ℕ × ℕ :=
  (blockLo desc.first desc.chunk blockId,
    blockHi desc.first desc.last desc.chunk blockId)

def BlockRun.range (blockRun : BlockRun) : ℕ × ℕ :=
  (blockRun.lo, blockRun.hi)

def JobDescriptor.blockRun (desc : JobDescriptor) (rank blockId : ℕ) :
    BlockRun where
  rank := rank
  blockId := blockId
  lo := (desc.blockRange blockId).1
  hi := (desc.blockRange blockId).2

/-- Where a rank is in its runner. -/
inductive RankPc
  /-- Before the first claim. -/
  | entered
  /-- It claimed the block and has not run it. -/
  | claimed (blockId : ℕ)
  /-- It ran the block and claims again. -/
  | ran (blockId : ℕ)
  | returned
  deriving DecidableEq, Repr

/-- The words the ranks share, and where each rank is. -/
structure RunState where
  nextBlock : ℕ
  /-- The rank that won the first-exception slot. -/
  firstException : Option ℕ
  stopRequested : Bool
  ranks : ℕ → RankPc

def RunState.at (state : RunState) (rank : ℕ) (pc : RankPc) : RunState :=
  { state with ranks := Function.update state.ranks rank pc }

/-- What `parallelFor` leaves in `nextBlock`: it stores the participants when
there are more blocks than ranks and keeps the stale value otherwise. -/
def JobDescriptor.startCounter (desc : JobDescriptor) (stale : ℕ) : ℕ :=
  if desc.participants < desc.blockCount then desc.participants else stale

/-- The dispatch as its ranks enter their runners. -/
def Dispatch.start (dispatch : Dispatch) (stale : ℕ) : RunState where
  nextBlock := dispatch.desc.startCounter stale
  firstException := none
  stopRequested := false
  ranks := fun _ => .entered

/-- The contiguous runner looks at the captured exception once, outside its
loop. -/
def Dispatch.leavesOnEntry (dispatch : Dispatch) (state : RunState) : Bool :=
  match dispatch.share with
  | .contiguous => !dispatch.bodyNoexcept && state.firstException.isSome
  | .balanced _ _ => false

/-- The checks between the claim of a block and its body; `runPartition` and
`runPartitionTyped` make both, the others as the hints say. -/
def Dispatch.leavesBeforeBody (dispatch : Dispatch) (state : RunState)
    (rank : ℕ) : Bool :=
  match dispatch.share with
  | .contiguous => dispatch.cancellationActive && state.stopRequested
  | .balanced _ runner =>
      match runner rank with
      | .runPartition | .runPartitionTyped =>
          state.firstException.isSome || state.stopRequested
      | .runPartitionTypedHinted | .typedWorkerEntry =>
          (!dispatch.bodyNoexcept && state.firstException.isSome) ||
            (dispatch.cancellationActive && state.stopRequested)

/-- A claim by the rank. -/
def Dispatch.claim (dispatch : Dispatch) (state : RunState) (rank : ℕ)
    (prevIdx : Option ℕ) : RunState :=
  let (blockId, nextBlock) :=
    dispatch.nextBlockId rank prevIdx state.nextBlock
  { state.at rank (blockId.elim .returned .claimed) with
    nextBlock := nextBlock }

/-- One step of a rank, or a stop request on the descriptor's token. -/
inductive Action
  | rank (rank : ℕ)
  | stop
  deriving DecidableEq, Repr

def Dispatch.step (dispatch : Dispatch) (state : RunState) :
    Action → Option (RunState × Option BlockRun)
  | .stop => some ({ state with stopRequested := true }, none)
  | .rank rank =>
      if dispatch.desc.participants ≤ rank then none
      else match state.ranks rank with
        | .entered =>
            if dispatch.leavesOnEntry state then
              some (state.at rank .returned, none)
            else some (dispatch.claim state rank none, none)
        | .claimed blockId =>
            let blockRun := dispatch.desc.blockRun rank blockId
            if dispatch.leavesBeforeBody state rank then
              some (state.at rank .returned, none)
            else if dispatch.throws blockId then
              some ({ state.at rank .returned with
                firstException :=
                  captureFirstException state.firstException rank },
                some blockRun)
            else some (state.at rank (.ran blockId), some blockRun)
        | .ran blockId => some (dispatch.claim state rank (some blockId), none)
        | .returned => none

/-- The ranks' claims, interleaved in any order. -/
def Dispatch.machine (dispatch : Dispatch) :
    Machine RunState Action BlockRun where
  step := dispatch.step

/-- Every rank has left its runner. -/
def Dispatch.Finished (dispatch : Dispatch) (state : RunState) : Prop :=
  ∀ rank < dispatch.desc.participants, state.ranks rank = .returned

instance (dispatch : Dispatch) (state : RunState) :
    Decidable (dispatch.Finished state) :=
  inferInstanceAs (Decidable (∀ rank < dispatch.desc.participants, _))

/-- No block threw and no stop was requested. -/
def RunState.Undisturbed (state : RunState) : Prop :=
  state.firstException = none ∧ state.stopRequested = false

instance (state : RunState) : Decidable state.Undisturbed :=
  inferInstanceAs (Decidable (_ ∧ _))

end Citor.BlockRunners
