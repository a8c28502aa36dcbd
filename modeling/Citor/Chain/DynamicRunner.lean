import Citor.Core.Interleaving
import Citor.Core.MachineWord
import Citor.Engine.BlockPartition
import Citor.Chain.StageRunner

/-!
# The dynamic chain scheduler

One `parallelChain` call whose stages are all separated by a rendezvous and
whose hints ask for `DynamicChunked`: in every stage the slots drain one
shared 64-bit counter of block ids.  As in the same-chunk engine a program
counter stands in front of its slot's next atomic operation or inside a body.
-/

namespace Citor.DynamicChain

open Citor.Interleaving
open Citor.DoneSlots
open Citor.SlotRunners
open Citor.Chain (BarrierKind)
open Citor.BlockPartition
open Citor.MachineWord

/-- One call with two participants or more and a non-empty range: the stages'
barriers, the hinted chunk and the blocks whose bodies throw. -/
structure Call where
  participants : ℕ
  two_le : 2 ≤ participants
  barriers : List BarrierKind
  /-- `allChainStagesAllowDynamicRebalance`. -/
  rebalance : ∀ barrier ∈ barriers, barrier.isRendezvous = true
  n : ℕ
  n_pos : 0 < n
  n_lt : n < 2 ^ 64
  hintChunk : ℕ
  hintChunk_lt : hintChunk < 2 ^ 64
  throws : ℕ → ℕ → ℕ → Bool
  epochs : ChainEpochs

def Call.nStages (call : Call) : ℕ :=
  call.barriers.length

/-- `chainDynamicChunkSize`. -/
def chainDynamicChunkSize (n participants hintChunk : ℕ) : ℕ :=
  if hintChunk ≠ 0 then hintChunk else ceilDiv n (participants * 2)

/-- `dynamicChunk`. -/
def Call.chunk (call : Call) : ℕ :=
  chainDynamicChunkSize call.n call.participants call.hintChunk

/-- `dynamicBlockCount`. -/
def Call.blockCount (call : Call) : ℕ :=
  ceilDiv call.n call.chunk

/-- `dynamicBlockRange`, in 64-bit arithmetic. -/
def dynamicBlockRange (n chunk block : ℕ) : ℕ × ℕ :=
  let lo := word (block * chunk)
  (lo, if chunk < n - lo then word (lo + chunk) else n)

def Call.blockRange (call : Call) (block : ℕ) : ℕ × ℕ :=
  dynamicBlockRange call.n call.chunk block

/-- Where a slot stands in `runDynamicChainStageForSlot`. -/
inductive Pc
  /-- `waitAllSlotsDone`, about to read the peer `step` places ahead. -/
  | scanPeers (stage step : ℕ)
  /-- At the stage boundary, about to load `chainCancelled`. -/
  | loadCancelled (stage : ℕ)
  /-- `chainCancelled` was clear; about to poll the token. -/
  | pollToken (stage : ℕ)
  /-- Leaving early; about to poll the token again. -/
  | repollToken (stage : ℕ)
  | storeCancelled (stage : ℕ)
  | stampFinal (stage : ℕ)
  /-- At the head of the claim loop, about to load `chainCancelled`. -/
  | loopHead (stage : ℕ)
  /-- About to `fetch_add` the stage counter. -/
  | claim (stage : ℕ)
  | inBlock (stage block : ℕ)
  /-- In the catch block. -/
  | capture (stage block : ℕ)
  | storeFailed (stage : ℕ)
  | stampStage (stage : ℕ)
  /-- Returned; `passed` counts the stages the slot got through. -/
  | left (passed : ℕ)
  deriving DecidableEq, Repr

/-- The failure of one block's body. -/
structure Failure where
  stage : ℕ
  slot : ℕ
  block : ℕ
  deriving DecidableEq, Repr

inductive Event
  | blockStart (stage slot block : ℕ)
  | blockEnd (stage slot block : ℕ)
  | blockThrow (failure : Failure)
  /-- The catch block offered the failure to `firstException`. -/
  | captured (failure : Failure)
  deriving DecidableEq, Repr

/-- The words that only this engine has. -/
structure Own where
  /-- `dynamicStageCounter(stage).next`. -/
  counter : ℕ → ℕ

/-- The words of the call; `cancelled` is `chainCancelled`. -/
abbrev State := SlotRunners.State Pc Failure Own

inductive Action
  /-- The next atomic operation of one slot. -/
  | slot (slot : ℕ)
  /-- The dispatch join and `rethrowIfCaptured`. -/
  | join
  /-- Somebody triggers the stop token. -/
  | requestStop
  deriving DecidableEq, Repr

/-- The entry of `runDynamicChainStageForSlot<stage>`. -/
def enterStage (call : Call) (stage : ℕ) : Pc :=
  if stage < call.nStages then
    if 0 < stage then .scanPeers stage 1 else .loadCancelled stage
  else .left stage

/-- The stage counter's `fetch_add(1)`. -/
def State.fetchAdd (state : State) (stage : ℕ) : State :=
  { state with
    own.counter := Function.update state.own.counter stage
      (word (state.own.counter stage + 1)) }

/-- One atomic operation of `slot`.  A wait whose condition does not hold yet
only re-reads its stamp; that is no step. -/
def stepSlot (call : Call) (state : State) (slot : ℕ) :
    Option (State × Option Event) :=
  let base := call.epochs.epochBase
  match state.pc slot with
  | .scanPeers stage step =>
      if state.done (scanPeer call.participants slot step) < base + stage then
        none
      else if step + 1 < call.participants then
        some (state.setPc slot (.scanPeers stage (step + 1)), none)
      else some (state.setPc slot (.loadCancelled stage), none)
  | .loadCancelled stage =>
      if state.cancelled then
        some (state.setPc slot (.repollToken stage), none)
      else some (state.setPc slot (.pollToken stage), none)
  | .pollToken stage =>
      if state.stopRequested then
        some (state.setPc slot (.repollToken stage), none)
      else some (state.setPc slot (.loopHead stage), none)
  | .repollToken stage =>
      if state.stopRequested then
        some (state.setPc slot (.storeCancelled stage), none)
      else some (state.setPc slot (.stampFinal stage), none)
  | .storeCancelled stage =>
      some ({ state with cancelled := true }.setPc slot
        (.stampFinal stage), none)
  | .stampFinal stage =>
      some ((state.stamp slot (base + call.nStages)).setPc slot
        (.left stage), none)
  | .loopHead stage =>
      if state.cancelled then
        some (state.setPc slot (.stampStage stage), none)
      else some (state.setPc slot (.claim stage), none)
  | .claim stage =>
      let block := state.own.counter stage
      if call.blockCount ≤ block then
        some ((state.fetchAdd stage).setPc slot (.stampStage stage), none)
      else some ((state.fetchAdd stage).setPc slot (.inBlock stage block),
        some (.blockStart stage slot block))
  | .inBlock stage block =>
      if call.throws stage slot block then
        some (state.setPc slot (.capture stage block),
          some (.blockThrow ⟨stage, slot, block⟩))
      else some (state.setPc slot (.loopHead stage),
        some (.blockEnd stage slot block))
  | .capture stage block =>
      some ({ state with
        firstException := captureFirstException state.firstException
          ⟨stage, slot, block⟩ }.setPc slot (.storeFailed stage),
        some (.captured ⟨stage, slot, block⟩))
  | .storeFailed stage =>
      some ({ state with cancelled := true }.setPc slot
        (.stampFinal stage), none)
  | .stampStage stage =>
      some ((state.stamp slot (base + (stage + 1))).setPc slot
        (enterStage call (stage + 1)), none)
  | .left _ => none

def Pc.hasLeft : Pc → Bool
  | .left _ => true
  | _ => false

/-- The dynamic chain call as a machine. -/
def dynamicChain (call : Call) : Machine State Action Event where
  step state
    | .slot slot =>
        if slot < call.participants then stepSlot call state slot else none
    | .join =>
        if state.outcome = none ∧
            state.allLeft Pc.hasLeft call.participants then
          some ({ state with
            outcome := some (rethrowIfCaptured state.firstException) }, none)
        else none
    | .requestStop => some ({ state with stopRequested := true }, none)

/-- The state the producer publishes: every stage counter is zero. -/
def start (call : Call) : State where
  pc := fun _ => enterStage call 0
  done := call.epochs.done
  own := ⟨fun _ => 0⟩
  cancelled := false
  stopRequested := false
  firstException := none
  outcome := none

/-! ## Block ranges -/

section Ranges

variable (call : Call)

theorem Call.chunk_pos : 0 < call.chunk := by
  unfold Call.chunk chainDynamicChunkSize
  split
  · omega
  · exact ceilDiv_pos call.n_pos

theorem Call.blockCount_pos : 0 < call.blockCount :=
  ceilDiv_pos call.n_pos

/-- A block id is below the block count exactly when its first index is below
`n`. -/
theorem Call.block_lt_iff (block : ℕ) :
    block < call.blockCount ↔ block * call.chunk < call.n := by
  have hchunk := call.chunk_pos
  have hdiv := Nat.div_add_mod call.n call.chunk
  have hcomm : call.n / call.chunk * call.chunk =
      call.chunk * (call.n / call.chunk) := Nat.mul_comm _ _
  have hmod := Nat.mod_lt call.n hchunk
  unfold Call.blockCount ceilDiv
  constructor
  · intro hlt
    rcases Nat.lt_or_ge block (call.n / call.chunk) with hless | hlast
    · have := Nat.mul_le_mul_right call.chunk (Nat.succ_le_of_lt hless)
      rw [Nat.succ_mul] at this
      omega
    · split at hlt
      · obtain rfl : block = call.n / call.chunk := by omega
        omega
      · omega
  · intro hlt
    have hle : block ≤ call.n / call.chunk :=
      (Nat.le_div_iff_mul_le hchunk).2 hlt.le
    split
    · omega
    next hzero =>
      rcases Nat.lt_or_eq_of_le hle with hless | rfl
      · omega
      · omega

theorem Call.blockRange_eq {block : ℕ} (hblock : block < call.blockCount) :
    call.blockRange block = (block * call.chunk,
      min (block * call.chunk + call.chunk) call.n) := by
  have hlt := (call.block_lt_iff block).1 hblock
  have hn := call.n_lt
  have hlo : word (block * call.chunk) = block * call.chunk :=
    word_of_lt (by omega)
  simp only [Call.blockRange, dynamicBlockRange, hlo, Prod.mk.injEq, true_and]
  split
  next hinside =>
    rw [word_of_lt (by omega)]
    omega
  next hlast => omega

/-- The blocks' ranges tile `[0, n)`. -/
structure Tiles (call : Call) : Prop where
  nonempty : ∀ block < call.blockCount,
    (call.blockRange block).1 < (call.blockRange block).2
  first : (call.blockRange 0).1 = 0
  next : ∀ block, block + 1 < call.blockCount →
    (call.blockRange (block + 1)).1 = (call.blockRange block).2
  last : (call.blockRange (call.blockCount - 1)).2 = call.n

theorem tiles : Tiles call := by
  have hchunk := call.chunk_pos
  have hcount := call.blockCount_pos
  constructor
  · intro block hblock
    have hlt := (call.block_lt_iff block).1 hblock
    rw [call.blockRange_eq hblock]
    simp only [lt_min_iff]
    omega
  · rw [call.blockRange_eq hcount]
    exact Nat.zero_mul _
  · intro block hnext
    have hlt := (call.block_lt_iff (block + 1)).1 hnext
    rw [call.blockRange_eq hnext, call.blockRange_eq (by omega)]
    rw [Nat.succ_mul] at hlt ⊢
    simp only
    omega
  · have hend : call.n ≤ call.blockCount * call.chunk := by
      by_contra hlt
      have := (call.block_lt_iff call.blockCount).2 (by omega)
      omega
    have hsplit : call.blockCount * call.chunk =
        (call.blockCount - 1) * call.chunk + call.chunk := by
      rw [← Nat.succ_mul]
      congr 1
      omega
    rw [call.blockRange_eq (by omega)]
    simp only
    omega

theorem Call.blockCount_lt : call.blockCount < 2 ^ 64 := by
  have hchunk := call.chunk_pos
  have hlt := (call.block_lt_iff (call.blockCount - 1)).1 (by
    have := call.blockCount_pos
    omega)
  have hle := Nat.le_mul_of_pos_right (call.blockCount - 1) hchunk
  have hn := call.n_lt
  omega

end Ranges

end Citor.DynamicChain
