import Citor.Engine.BlockRunners
import Citor.Core.Census

/-!
# Every block is run exactly once

A rank owes the blocks its next claims will hand it whatever the other ranks
do; the shared counter owes the rest.  A claim moves an id without losing or
copying it, and a body run takes the id out.  So the ids that were run and the
ids still owed are together `0, …, blockCount - 1`, until a body throws or a
stop makes a rank leave early.
-/

namespace Citor.BlockCoverage

open Interleaving BlockPartition BlockRunners Census DoneSlots

/-! ## What is owed -/

/-- What a rank owes when it enters. -/
def firstBlocks (dispatch : Dispatch) (rank : ℕ) : List ℕ :=
  let desc := dispatch.desc
  match dispatch.share with
  | .contiguous => contiguousBlocks desc.blockCount desc.participants rank
  | .balanced .staticUniform _ =>
      staticBlocks desc.blockCount desc.participants rank
  | .balanced .dynamicChunked _ =>
      if rank < desc.blockCount then [rank] else []

/-- What a rank still owes after a block. -/
def blocksAfter (dispatch : Dispatch) (rank blockId : ℕ) : List ℕ :=
  let desc := dispatch.desc
  match dispatch.share with
  | .contiguous =>
      let stop :=
        (contiguousRankBlockSpan desc.blockCount desc.participants rank).2
      List.range' (blockId + 1) (stop - (blockId + 1))
  | .balanced .staticUniform _ =>
      stridedFrom desc.blockCount desc.participants
        (blockId + desc.participants)
  | .balanced .dynamicChunked _ => []

def owed (dispatch : Dispatch) (rank : ℕ) : RankPc → List ℕ
  | .entered => firstBlocks dispatch rank
  | .claimed blockId => blockId :: blocksAfter dispatch rank blockId
  | .ran blockId => blocksAfter dispatch rank blockId
  | .returned => []

/-- What the counter owes: the tail of a dispatch with more blocks than
ranks. -/
def tailBlocks (dispatch : Dispatch) (nextBlock : ℕ) : List ℕ :=
  let desc := dispatch.desc
  match dispatch.share with
  | .balanced .dynamicChunked _ =>
      if desc.participants < desc.blockCount then
        List.range' nextBlock (desc.blockCount - nextBlock)
      else []
  | _ => []

/-- What a claim finds owed by the rank. -/
def owedBefore (dispatch : Dispatch) (rank : ℕ) (prevIdx : Option ℕ) :
    List ℕ :=
  prevIdx.elim (firstBlocks dispatch rank) (blocksAfter dispatch rank)

/-- What a claim leaves owed by the rank. -/
def owedAfter (dispatch : Dispatch) (rank : ℕ) (claimed : Option ℕ) :
    List ℕ :=
  claimed.elim [] fun blockId => blockId :: blocksAfter dispatch rank blockId

theorem owed_claimed (dispatch : Dispatch) (rank : ℕ)
    (claimed : Option ℕ) :
    owed dispatch rank (claimed.elim .returned .claimed) =
      owedAfter dispatch rank claimed := by
  cases claimed <;> rfl

/-! ## A claim conserves what is owed -/

theorem stridedFrom_nil {blockCount participants blockId : ℕ}
    (hend : blockCount ≤ blockId) :
    stridedFrom blockCount participants blockId = [] := by
  rw [stridedFrom]
  simp [Nat.not_lt.2 hend]

theorem stridedFrom_cons {blockCount participants blockId : ℕ}
    (hpos : 0 < participants) (hblock : blockId < blockCount) :
    stridedFrom blockCount participants blockId =
      blockId ::
        stridedFrom blockCount participants (blockId + participants) := by
  rw [stridedFrom]
  simp [hblock, hpos]

theorem nextStaticBlock_conserves {participants : ℕ}
    (hpos : 0 < participants) (blockCount rank : ℕ) (prevIdx : Option ℕ) :
    (nextStaticBlock blockCount participants rank prevIdx).elim []
        (fun blockId => blockId ::
          stridedFrom blockCount participants (blockId + participants)) =
      stridedFrom blockCount participants
        (prevIdx.elim rank (· + participants)) := by
  cases prevIdx with
  | none =>
      simp only [nextStaticBlock, Option.elim_none]
      split
      next hblock => exact (stridedFrom_cons hpos hblock).symm
      next hend => exact (stridedFrom_nil (Nat.not_lt.1 hend)).symm
  | some blockId =>
      simp only [nextStaticBlock, Option.elim_some]
      split
      next hblock => exact (stridedFrom_cons hpos hblock).symm
      next hend => exact (stridedFrom_nil (Nat.not_lt.1 hend)).symm

theorem nextSpanBlock_conserves (blockCount participants rank : ℕ)
    (prevIdx : Option ℕ) :
    let span := contiguousRankBlockSpan blockCount participants rank
    (nextSpanBlock blockCount participants rank prevIdx).elim []
        (fun blockId => blockId ::
          List.range' (blockId + 1) (span.2 - (blockId + 1))) =
      List.range' (prevIdx.elim span.1 (· + 1))
        (span.2 - prevIdx.elim span.1 (· + 1)) := by
  intro span
  have hclaim : nextSpanBlock blockCount participants rank prevIdx =
      if prevIdx.elim span.1 (· + 1) < span.2 then
        some (prevIdx.elim span.1 (· + 1)) else none := rfl
  rw [hclaim]
  generalize prevIdx.elim span.1 (· + 1) = blockId
  split
  next hinside =>
    have hlength : span.2 - blockId = (span.2 - (blockId + 1)) + 1 := by omega
    rw [hlength, List.range'_succ]
    rfl
  next houtside =>
    have hlength : span.2 - blockId = 0 := by omega
    rw [hlength]
    rfl

/-- The counter's own claim. -/
theorem tail_conserves (blockCount nextBlock : ℕ) :
    (if nextBlock < blockCount then some nextBlock else none).elim []
          (fun blockId => [blockId]) ++
        List.range' (nextBlock + 1) (blockCount - (nextBlock + 1)) =
      List.range' nextBlock (blockCount - nextBlock) := by
  split
  next hinside =>
    have hlength : blockCount - nextBlock =
        (blockCount - (nextBlock + 1)) + 1 := by omega
    rw [hlength, List.range'_succ]
    rfl
  next houtside =>
    have hlength : blockCount - nextBlock = 0 := by omega
    have hafter : blockCount - (nextBlock + 1) = 0 := by omega
    rw [hlength, hafter]
    rfl

/-- The fast path claims what the claim loop would. -/
theorem singleRankBlock_eq_nextTypedBlock {blockCount participants rank : ℕ}
    (hrank : rank < participants) (hfits : blockCount ≤ participants)
    (balance : Balance) (prevIdx : Option ℕ) (nextBlock : ℕ) :
    (singleRankBlock blockCount rank prevIdx, nextBlock) =
      nextTypedBlock balance blockCount participants rank prevIdx
        nextBlock := by
  cases prevIdx with
  | none =>
      rcases Nat.lt_or_ge rank blockCount with hblock | hend
      · cases balance <;>
          simp [singleRankBlock, nextTypedBlock, nextStaticBlock, hblock,
            hrank, Nat.not_le.2 hblock]
      · cases balance <;>
          simp [singleRankBlock, nextTypedBlock, nextStaticBlock, hend, hfits,
            Nat.not_lt.2 hend]
  | some blockId =>
      have hlast : ¬ blockId + participants < blockCount := by omega
      cases balance <;>
        simp [singleRankBlock, nextTypedBlock, nextStaticBlock, hfits, hlast]

/-- The runners of a balance all claim alike. -/
theorem nextBlockId_balanced {dispatch : Dispatch} {balance : Balance}
    {runner : ℕ → Runner} (hshare : dispatch.share = .balanced balance runner)
    {rank : ℕ} (hrank : rank < dispatch.desc.participants) :
    dispatch.nextBlockId rank =
      nextTypedBlock balance dispatch.desc.blockCount
        dispatch.desc.participants rank := by
  funext prevIdx nextBlock
  rw [Dispatch.nextBlockId]
  simp only [hshare, BlockClaim.next_eq_nextTypedBlock]
  have hfast : (if dispatch.desc.blockCount ≤ dispatch.desc.participants then
        (singleRankBlock dispatch.desc.blockCount rank prevIdx, nextBlock)
      else
        nextTypedBlock balance dispatch.desc.blockCount
          dispatch.desc.participants rank prevIdx nextBlock) =
      nextTypedBlock balance dispatch.desc.blockCount
        dispatch.desc.participants rank prevIdx nextBlock := by
    split
    next hfits =>
      exact singleRankBlock_eq_nextTypedBlock hrank hfits balance _ _
    · rfl
  cases runner rank with
  | runPartition => rfl
  | runPartitionTyped => rfl
  | runPartitionTypedHinted => exact hfast
  | typedWorkerEntry => exact hfast

/-- A claim moves ids from what the rank and the counter owed before to what
they owe after. -/
theorem claim_conserves (dispatch : Dispatch) {rank : ℕ}
    (hrank : rank < dispatch.desc.participants) (prevIdx : Option ℕ)
    (nextBlock : ℕ) :
    let outcome := dispatch.nextBlockId rank prevIdx nextBlock
    owedAfter dispatch rank outcome.1 ++ tailBlocks dispatch outcome.2 =
      owedBefore dispatch rank prevIdx ++ tailBlocks dispatch nextBlock := by
  cases hshare : dispatch.share with
  | contiguous =>
      have hspan := nextSpanBlock_conserves dispatch.desc.blockCount
        dispatch.desc.participants rank prevIdx
      simp only [Dispatch.nextBlockId, hshare, owedAfter, owedBefore,
        tailBlocks, firstBlocks, blocksAfter, List.append_nil]
      rw [hspan]
      cases prevIdx with
      | none => rfl
      | some blockId => simp [blocksAfter, hshare]
  | balanced balance runner =>
      rw [nextBlockId_balanced hshare hrank]
      cases balance with
      | staticUniform =>
          have hstride := nextStaticBlock_conserves
            dispatch.desc.participants_pos dispatch.desc.blockCount rank
            prevIdx
          simp only [nextTypedBlock, owedAfter, owedBefore, tailBlocks,
            hshare, firstBlocks, blocksAfter, List.append_nil, staticBlocks]
          rw [hstride]
          cases prevIdx with
          | none => rfl
          | some blockId => simp [blocksAfter, hshare]
      | dynamicChunked =>
          have hafter : blocksAfter dispatch rank = fun _ => [] := by
            funext blockId
            simp [blocksAfter, hshare]
          simp only [nextTypedBlock, owedAfter, owedBefore, tailBlocks,
            hshare, firstBlocks, hafter]
          by_cases hown : prevIdx = none ∧ rank < dispatch.desc.blockCount ∧
              rank < dispatch.desc.participants
          · obtain ⟨rfl, hblock, -⟩ := hown
            simp [hblock, hrank]
          · have hempty : prevIdx.elim
                (if rank < dispatch.desc.blockCount then [rank] else [])
                (fun _ => []) = ([] : List ℕ) := by
              cases prevIdx with
              | none =>
                  have : ¬ rank < dispatch.desc.blockCount := fun hblock =>
                    hown ⟨rfl, hblock, hrank⟩
                  simp [this]
              | some blockId => rfl
            rw [if_neg hown, hempty]
            by_cases hfits :
                dispatch.desc.blockCount ≤ dispatch.desc.participants
            · simp [hfits, Nat.not_lt.2 hfits]
            · simp only [hfits, if_false, Nat.not_le.1 hfits, if_true,
                List.nil_append]
              exact tail_conserves dispatch.desc.blockCount nextBlock

/-- A rank whose claim found nothing leaves nothing to the counter. -/
theorem tailBlocks_of_claim_none (dispatch : Dispatch) {rank : ℕ}
    (hrank : rank < dispatch.desc.participants) (prevIdx : Option ℕ)
    {nextBlock : ℕ}
    (hnone : (dispatch.nextBlockId rank prevIdx nextBlock).1 = none) :
    tailBlocks dispatch nextBlock = [] := by
  cases hshare : dispatch.share with
  | contiguous => simp [tailBlocks, hshare]
  | balanced balance runner =>
      cases balance with
      | staticUniform => simp [tailBlocks, hshare]
      | dynamicChunked =>
          rw [nextBlockId_balanced hshare hrank] at hnone
          simp only [nextTypedBlock] at hnone
          split at hnone
          · simp at hnone
          split at hnone
          next hfits => simp [tailBlocks, hshare, Nat.not_lt.2 hfits]
          next =>
            have hdrained : dispatch.desc.blockCount ≤ nextBlock := by
              simpa using hnone
            simp [tailBlocks, hshare, Nat.sub_eq_zero_of_le hdrained]

theorem tailBlocks_nil_mono (dispatch : Dispatch) {before after : ℕ}
    (hle : before ≤ after) (hnil : tailBlocks dispatch before = []) :
    tailBlocks dispatch after = [] := by
  cases hshare : dispatch.share with
  | contiguous => simp [tailBlocks, hshare]
  | balanced balance runner =>
      cases balance with
      | staticUniform => simp [tailBlocks, hshare]
      | dynamicChunked =>
          simp only [tailBlocks, hshare] at hnil ⊢
          split
          next hmore =>
            simp only [hmore, if_true, List.range'_eq_nil_iff] at hnil
            rw [List.range'_eq_nil_iff]
            omega
          · rfl

theorem le_nextBlockId (dispatch : Dispatch) {rank : ℕ}
    (hrank : rank < dispatch.desc.participants) (prevIdx : Option ℕ)
    (nextBlock : ℕ) :
    nextBlock ≤ (dispatch.nextBlockId rank prevIdx nextBlock).2 := by
  cases hshare : dispatch.share with
  | contiguous => simp [Dispatch.nextBlockId, hshare]
  | balanced balance runner =>
      rw [nextBlockId_balanced hshare hrank]
      cases balance with
      | staticUniform => exact le_rfl
      | dynamicChunked =>
          simp only [nextTypedBlock]
          split
          · exact le_rfl
          split
          · exact le_rfl
          · exact Nat.le_succ nextBlock

/-! ## At the start everything is owed once -/

theorem stridedFrom_nodup {participants : ℕ} (hpos : 0 < participants)
    (blockCount start : ℕ) :
    (stridedFrom blockCount participants start).Nodup := by
  induction start using stridedFrom.induct blockCount participants with
  | case1 start hstart ih =>
      rw [stridedFrom_cons hpos hstart.1, List.nodup_cons]
      refine ⟨fun hmem => ?_, ih⟩
      have := ((mem_stridedFrom hpos _ _).1 hmem).1
      omega
  | case2 start hend =>
      rw [stridedFrom, if_neg hend]
      exact List.nodup_nil

theorem mem_staticBlocks {blockCount participants rank : ℕ}
    (hrank : rank < participants) (blockId : ℕ) :
    blockId ∈ staticBlocks blockCount participants rank ↔
      blockId < blockCount ∧ rank = blockId % participants := by
  rw [staticBlocks, mem_stridedFrom (by omega)]
  constructor
  · rintro ⟨hle, hblock, stride, hstride⟩
    refine ⟨hblock, ?_⟩
    have hsum : blockId = rank + participants * stride := by omega
    rw [hsum, Nat.add_mul_mod_self_left, Nat.mod_eq_of_lt hrank]
  · rintro ⟨hblock, rfl⟩
    exact ⟨Nat.mod_le _ _, hblock, Nat.dvd_sub_mod blockId⟩

theorem mem_contiguousBlocks_unique {blockCount participants blockId : ℕ}
    {rank other : ℕ} (hrank : rank < participants)
    (hother : other < participants)
    (hmem : blockId ∈ contiguousBlocks blockCount participants rank)
    (hmem' : blockId ∈ contiguousBlocks blockCount participants other) :
    rank = other := by
  rw [mem_contiguousBlocks hrank] at hmem
  rw [mem_contiguousBlocks hother] at hmem'
  have hordered : ∀ {low high : ℕ}, low < high →
      spanBegin blockCount participants high ≤ blockId →
      blockId < spanBegin blockCount participants (low + 1) → False := by
    intro low high hlt hbegun hend
    have := spanBegin_mono blockCount participants (Nat.succ_le_of_lt hlt)
    simp only [Nat.succ_eq_add_one] at this
    omega
  rcases Nat.lt_trichotomy rank other with hlt | heq | hgt
  · exact absurd (hordered hlt hmem'.1 hmem.2) id
  · exact heq
  · exact absurd (hordered hgt hmem.1 hmem'.2) id

theorem count_range (blockCount blockId : ℕ) :
    (List.range blockCount).count blockId =
      if blockId < blockCount then 1 else 0 := by
  rw [List.Nodup.count List.nodup_range]
  simp

theorem census_contiguousBlocks {participants : ℕ} (hpos : 0 < participants)
    (blockCount blockId : ℕ) :
    census participants (single blockId)
        (contiguousBlocks blockCount participants) =
      if blockId < blockCount then 1 else 0 := by
  have hcover := mem_contiguousBlocks_iff hpos blockCount blockId
  split
  next hblock =>
    obtain ⟨owner, howner, hmem⟩ := hcover.2 hblock
    refine census_single_eq_one howner List.nodup_range' ?_
    intro rank hrank
    constructor
    · intro hother
      exact mem_contiguousBlocks_unique hrank howner hother hmem
    · rintro rfl
      exact hmem
  next hblock =>
    refine census_single_eq_zero fun rank hrank hmem => hblock ?_
    exact hcover.1 ⟨rank, hrank, hmem⟩

theorem census_staticBlocks {participants : ℕ} (hpos : 0 < participants)
    (blockCount blockId : ℕ) :
    census participants (single blockId)
        (staticBlocks blockCount participants) =
      if blockId < blockCount then 1 else 0 := by
  split
  next hblock =>
    refine census_single_eq_one (Nat.mod_lt blockId hpos)
      (stridedFrom_nodup hpos _ _) ?_
    intro rank hrank
    rw [mem_staticBlocks hrank]
    exact and_iff_right hblock
  next hblock =>
    refine census_single_eq_zero fun rank hrank hmem => hblock ?_
    exact ((mem_staticBlocks hrank blockId).1 hmem).1

/-- The first blocks of the dynamic balance. -/
theorem census_ownBlocks (blockCount participants blockId : ℕ) :
    census participants (single blockId)
        (fun rank => if rank < blockCount then [rank] else []) =
      if blockId < min blockCount participants then 1 else 0 := by
  have hmem : ∀ rank, blockId ∈ (if rank < blockCount then [rank] else []) ↔
      rank = blockId ∧ blockId < blockCount := by
    intro rank
    by_cases hrank : rank < blockCount
    · simp only [hrank, if_true, List.mem_singleton]
      omega
    · simp only [hrank, if_false, List.not_mem_nil, false_iff]
      omega
  split
  next hblock =>
    rw [lt_min_iff] at hblock
    refine census_single_eq_one hblock.2 ?_ ?_
    · simp [hblock.1]
    · intro rank _
      rw [hmem]
      exact and_iff_left hblock.1
  next hblock =>
    refine census_single_eq_zero fun rank hrank hheld => hblock ?_
    obtain ⟨rfl, hown⟩ := (hmem rank).1 hheld
    exact lt_min hown hrank

/-- The tail as `parallelFor` sets the counter. -/
theorem count_tailBlocks_start {dispatch : Dispatch} {runner : ℕ → Runner}
    (hshare : dispatch.share = .balanced .dynamicChunked runner)
    (stale blockId : ℕ) :
    (tailBlocks dispatch (dispatch.desc.startCounter stale)).count blockId =
      if dispatch.desc.participants ≤ blockId ∧
        blockId < dispatch.desc.blockCount then 1 else 0 := by
  by_cases hmore : dispatch.desc.participants < dispatch.desc.blockCount
  · simp only [tailBlocks, hshare, JobDescriptor.startCounter, hmore, if_true]
    rw [List.Nodup.count List.nodup_range']
    refine if_congr ?_ rfl rfl
    rw [List.mem_range'_1]
    omega
  · have hnone : ¬ (dispatch.desc.participants ≤ blockId ∧
        blockId < dispatch.desc.blockCount) := by omega
    simp [tailBlocks, hshare, hmore, hnone]

/-- What the ranks owe when they enter, and the counter with them. -/
theorem census_firstBlocks (dispatch : Dispatch) (stale blockId : ℕ) :
    census dispatch.desc.participants (single blockId)
        (firstBlocks dispatch) +
      (tailBlocks dispatch (dispatch.desc.startCounter stale)).count blockId =
    (List.range dispatch.desc.blockCount).count blockId := by
  have hpos := dispatch.desc.participants_pos
  rw [count_range]
  cases hshare : dispatch.share with
  | contiguous =>
      have hfirst : firstBlocks dispatch = contiguousBlocks
          dispatch.desc.blockCount dispatch.desc.participants := by
        funext rank
        simp [firstBlocks, hshare]
      rw [hfirst, census_contiguousBlocks hpos]
      simp [tailBlocks, hshare]
  | balanced balance runner =>
      cases balance with
      | staticUniform =>
          have hfirst : firstBlocks dispatch = staticBlocks
              dispatch.desc.blockCount dispatch.desc.participants := by
            funext rank
            simp [firstBlocks, hshare]
          rw [hfirst, census_staticBlocks hpos]
          simp [tailBlocks, hshare]
      | dynamicChunked =>
          have hfirst : firstBlocks dispatch = fun rank =>
              if rank < dispatch.desc.blockCount then [rank] else [] := by
            funext rank
            simp [firstBlocks, hshare]
          rw [hfirst, census_ownBlocks, count_tailBlocks_start hshare]
          split <;> split <;> split <;> omega

/-! ## The books -/

/-- What each rank owes in a state. -/
def held (dispatch : Dispatch) (state : RunState) (rank : ℕ) : List ℕ :=
  owed dispatch rank (state.ranks rank)

/-- How often an id was run or is still owed. -/
def accounted (dispatch : Dispatch) (trace : List BlockRun)
    (state : RunState) (blockId : ℕ) : ℕ :=
  census dispatch.desc.participants (single blockId) (held dispatch state) +
    (tailBlocks dispatch state.nextBlock).count blockId +
    (trace.map BlockRun.blockId).count blockId

theorem held_at (dispatch : Dispatch) (state : RunState) (rank : ℕ)
    (pc : RankPc) :
    held dispatch (state.at rank pc) =
      Function.update (held dispatch state) rank (owed dispatch rank pc) := by
  funext other
  by_cases hother : other = rank
  · subst hother
    simp [held, RunState.at]
  · simp [held, RunState.at, hother]

/-- The balance of a rank that moves to another place. -/
theorem census_at (dispatch : Dispatch) (state : RunState) {rank : ℕ}
    (hrank : rank < dispatch.desc.participants) (pc : RankPc)
    (blockId : ℕ) :
    census dispatch.desc.participants (single blockId)
        (held dispatch (state.at rank pc)) +
      (held dispatch state rank).count blockId =
    census dispatch.desc.participants (single blockId) (held dispatch state) +
      (owed dispatch rank pc).count blockId := by
  rw [held_at, ← weigh_single, ← weigh_single]
  exact census_update hrank _ _ _

theorem accounted_claim (dispatch : Dispatch) (trace : List BlockRun)
    (state : RunState) {rank : ℕ}
    (hrank : rank < dispatch.desc.participants) (prevIdx : Option ℕ)
    (howed : held dispatch state rank = owedBefore dispatch rank prevIdx)
    (blockId : ℕ) :
    accounted dispatch trace (dispatch.claim state rank prevIdx) blockId =
      accounted dispatch trace state blockId := by
  have hconserve := congrArg (List.count blockId)
    (claim_conserves dispatch hrank prevIdx state.nextBlock)
  have hmove := census_at dispatch state hrank
    ((dispatch.nextBlockId rank prevIdx state.nextBlock).1.elim
      .returned .claimed) blockId
  rw [owed_claimed, howed] at hmove
  simp only [List.count_append] at hconserve
  have hheld : held dispatch (dispatch.claim state rank prevIdx) =
      held dispatch (state.at rank
        ((dispatch.nextBlockId rank prevIdx state.nextBlock).1.elim
          .returned .claimed)) := rfl
  have hcounter : (dispatch.claim state rank prevIdx).nextBlock =
      (dispatch.nextBlockId rank prevIdx state.nextBlock).2 := rfl
  rw [accounted, accounted, hheld, hcounter]
  omega

/-- A body run takes its id out of what the rank owes. -/
theorem accounted_run (dispatch : Dispatch) (trace : List BlockRun)
    (state : RunState) {rank blockId : ℕ}
    (hrank : rank < dispatch.desc.participants)
    (hclaimed : state.ranks rank = .claimed blockId) (other : ℕ) :
    accounted dispatch (trace ++ [dispatch.desc.blockRun rank blockId])
        (state.at rank (.ran blockId)) other =
      accounted dispatch trace state other := by
  have hmove := census_at dispatch state hrank (.ran blockId) other
  have hheld : held dispatch state rank =
      blockId :: blocksAfter dispatch rank blockId := by
    simp [held, hclaimed, owed]
  have hcounter : (state.at rank (.ran blockId)).nextBlock =
      state.nextBlock := rfl
  rw [hheld, List.count_cons] at hmove
  simp only [owed] at hmove
  simp only [accounted, hcounter, List.map_append, List.count_append,
    List.map_cons, List.map_nil, List.count_singleton,
    JobDescriptor.blockRun]
  omega

/-- A rank that leaves owes nothing. -/
theorem accounted_leave (dispatch : Dispatch) (trace : List BlockRun)
    (state : RunState) {rank : ℕ}
    (hrank : rank < dispatch.desc.participants) (blockId : ℕ) :
    accounted dispatch trace (state.at rank .returned) blockId ≤
      accounted dispatch trace state blockId := by
  have hmove := census_at dispatch state hrank .returned blockId
  have hcounter : (state.at rank .returned).nextBlock = state.nextBlock := rfl
  simp only [owed, List.count_nil] at hmove
  rw [accounted, accounted, hcounter]
  omega

/-- A rank whose body throws leaves with that block run. -/
theorem accounted_throw (dispatch : Dispatch) (trace : List BlockRun)
    (state : RunState) {rank blockId : ℕ}
    (hrank : rank < dispatch.desc.participants)
    (hclaimed : state.ranks rank = .claimed blockId) (other : ℕ) :
    accounted dispatch (trace ++ [dispatch.desc.blockRun rank blockId])
        (state.at rank .returned) other ≤
      accounted dispatch trace state other := by
  have hrun := accounted_run dispatch trace state hrank hclaimed other
  have hleave := accounted_leave dispatch
    (trace ++ [dispatch.desc.blockRun rank blockId])
    (state.at rank (.ran blockId)) hrank other
  have htwice : (state.at rank (.ran blockId)).at rank .returned =
      state.at rank .returned := by
    simp [RunState.at]
  rw [htwice] at hleave
  omega

/-- The invariant of a dispatch's runs. -/
structure Accounts (dispatch : Dispatch) (trace : List BlockRun)
    (state : RunState) : Prop where
  ranges : ∀ blockRun ∈ trace,
    blockRun = dispatch.desc.blockRun blockRun.rank blockRun.blockId
  once : ∀ blockId, accounted dispatch trace state blockId ≤
    (List.range dispatch.desc.blockCount).count blockId
  exact : state.Undisturbed → ∀ blockId,
    accounted dispatch trace state blockId =
      (List.range dispatch.desc.blockCount).count blockId
  drained : state.Undisturbed → ∀ rank < dispatch.desc.participants,
    state.ranks rank = .returned → tailBlocks dispatch state.nextBlock = []

theorem Accounts.start (dispatch : Dispatch) (stale : ℕ) :
    Accounts dispatch [] (dispatch.start stale) := by
  have hall : ∀ blockId, accounted dispatch [] (dispatch.start stale) blockId =
      (List.range dispatch.desc.blockCount).count blockId := by
    intro blockId
    have hheld : held dispatch (dispatch.start stale) = firstBlocks dispatch :=
      rfl
    have hcounter : (dispatch.start stale).nextBlock =
        dispatch.desc.startCounter stale := rfl
    rw [accounted, hheld, hcounter, List.map_nil, List.count_nil,
      Nat.add_zero]
    exact census_firstBlocks dispatch stale blockId
  refine ⟨by simp, fun blockId => (hall blockId).le, fun _ => hall, ?_⟩
  intro _ rank _ hreturned
  simp [Dispatch.start] at hreturned

theorem Accounts.claim {dispatch : Dispatch} {trace : List BlockRun}
    {state : RunState} (haccounts : Accounts dispatch trace state) {rank : ℕ}
    (hrank : rank < dispatch.desc.participants) (prevIdx : Option ℕ)
    (howed : held dispatch state rank = owedBefore dispatch rank prevIdx) :
    Accounts dispatch trace (dispatch.claim state rank prevIdx) := by
  have haccounted :=
    accounted_claim dispatch trace state hrank prevIdx howed
  refine ⟨haccounts.ranges, fun blockId => ?_, fun hclean blockId => ?_, ?_⟩
  · rw [haccounted]
    exact haccounts.once blockId
  · rw [haccounted]
    exact haccounts.exact hclean blockId
  · intro hclean other hother hreturned
    have hgrows := le_nextBlockId dispatch hrank prevIdx state.nextBlock
    refine tailBlocks_nil_mono dispatch hgrows ?_
    by_cases hself : other = rank
    · subst hself
      refine tailBlocks_of_claim_none dispatch hother prevIdx ?_
      cases hclaim :
          (dispatch.nextBlockId other prevIdx state.nextBlock).1 with
      | none => rfl
      | some blockId =>
          simp [Dispatch.claim, RunState.at, hclaim] at hreturned
    · have hbefore : state.ranks other = .returned := by
        simpa [Dispatch.claim, RunState.at, hself] using hreturned
      exact haccounts.drained hclean other hother hbefore

/-- A rank leaves early only once something threw or a stop was requested. -/
theorem disturbed_of_leaves {dispatch : Dispatch} {state : RunState}
    (hleaves : dispatch.leavesOnEntry state = true ∨
      ∃ rank, dispatch.leavesBeforeBody state rank = true) :
    ¬ state.Undisturbed := by
  rintro ⟨hexception, hstop⟩
  rcases hleaves with hentry | ⟨rank, hbefore⟩
  · cases hshare : dispatch.share with
    | contiguous => simp [Dispatch.leavesOnEntry, hshare, hexception] at hentry
    | balanced balance runner =>
        simp [Dispatch.leavesOnEntry, hshare] at hentry
  · cases hshare : dispatch.share with
    | contiguous =>
        simp [Dispatch.leavesBeforeBody, hshare, hstop] at hbefore
    | balanced balance runner =>
        cases hrunner : runner rank <;>
          simp [Dispatch.leavesBeforeBody, hshare, hrunner, hexception,
            hstop] at hbefore

theorem Accounts.leave {dispatch : Dispatch} {trace : List BlockRun}
    {state : RunState} (haccounts : Accounts dispatch trace state) {rank : ℕ}
    (hrank : rank < dispatch.desc.participants)
    (hdisturbed : ¬ state.Undisturbed) :
    Accounts dispatch trace (state.at rank .returned) := by
  refine ⟨haccounts.ranges, fun blockId => ?_, fun hclean => ?_,
    fun hclean => ?_⟩
  · exact (accounted_leave dispatch trace state hrank blockId).trans
      (haccounts.once blockId)
  · exact absurd hclean hdisturbed
  · exact absurd hclean hdisturbed

theorem Accounts.ranges_append {dispatch : Dispatch} {trace : List BlockRun}
    {state : RunState} (haccounts : Accounts dispatch trace state)
    (rank blockId : ℕ) :
    ∀ blockRun ∈ trace ++ [dispatch.desc.blockRun rank blockId],
      blockRun =
        dispatch.desc.blockRun blockRun.rank blockRun.blockId := by
  intro blockRun hmem
  rcases List.mem_append.1 hmem with hold | hnew
  · exact haccounts.ranges blockRun hold
  · rw [List.mem_singleton.1 hnew]
    rfl

theorem Accounts.run {dispatch : Dispatch} {trace : List BlockRun}
    {state : RunState} (haccounts : Accounts dispatch trace state)
    {rank blockId : ℕ} (hrank : rank < dispatch.desc.participants)
    (hclaimed : state.ranks rank = .claimed blockId) :
    Accounts dispatch (trace ++ [dispatch.desc.blockRun rank blockId])
      (state.at rank (.ran blockId)) := by
  have haccounted := accounted_run dispatch trace state hrank hclaimed
  refine ⟨haccounts.ranges_append rank blockId, fun other => ?_,
    fun hclean other => ?_, fun hclean other hother hreturned => ?_⟩
  · rw [haccounted]
    exact haccounts.once other
  · rw [haccounted]
    exact haccounts.exact hclean other
  · have hself : other ≠ rank := by
      rintro rfl
      simp [RunState.at] at hreturned
    have hbefore : state.ranks other = .returned := by
      simpa [RunState.at, hself] using hreturned
    exact haccounts.drained hclean other hother hbefore

theorem Accounts.throw {dispatch : Dispatch} {trace : List BlockRun}
    {state : RunState} (haccounts : Accounts dispatch trace state)
    {rank blockId : ℕ} (hrank : rank < dispatch.desc.participants)
    (hclaimed : state.ranks rank = .claimed blockId) :
    Accounts dispatch (trace ++ [dispatch.desc.blockRun rank blockId])
      { state.at rank .returned with
        firstException :=
          captureFirstException state.firstException rank } := by
  have hdisturbed : ∀ {clean : RunState}, clean.firstException =
      captureFirstException state.firstException rank →
      ¬ clean.Undisturbed := by
    rintro clean hcaptured ⟨hnone, -⟩
    rw [hcaptured] at hnone
    exact captureFirstException_ne_none _ _ hnone
  refine ⟨haccounts.ranges_append rank blockId, fun other => ?_,
    fun hclean => absurd hclean (hdisturbed rfl),
    fun hclean => absurd hclean (hdisturbed rfl)⟩
  exact (accounted_throw dispatch trace state hrank hclaimed other).trans
    (haccounts.once other)

/-- Every step keeps the books. -/
theorem Accounts.next {dispatch : Dispatch} {trace : List BlockRun}
    {state after : RunState} {action : Action} {event : Option BlockRun}
    (haccounts : Accounts dispatch trace state)
    (hstep : dispatch.machine.step state action = some (after, event)) :
    Accounts dispatch (trace ++ event.toList) after := by
  cases action with
  | stop =>
      simp only [Dispatch.machine, Dispatch.step, Option.some.injEq,
        Prod.mk.injEq] at hstep
      obtain ⟨rfl, rfl⟩ := hstep
      have hstopped : ¬ RunState.Undisturbed
          { state with stopRequested := true } := fun hclean => by
        simpa using hclean.2
      simp only [Option.toList_none, List.append_nil]
      exact ⟨haccounts.ranges, haccounts.once,
        fun hclean => absurd hclean hstopped,
        fun hclean => absurd hclean hstopped⟩
  | rank rank =>
      simp only [Dispatch.machine, Dispatch.step] at hstep
      split at hstep
      · simp at hstep
      next hinside =>
        have hrank : rank < dispatch.desc.participants := by omega
        cases hpc : state.ranks rank with
        | entered =>
            simp only [hpc] at hstep
            split at hstep
            next hleaves =>
              simp only [Option.some.injEq, Prod.mk.injEq] at hstep
              obtain ⟨rfl, rfl⟩ := hstep
              simpa using haccounts.leave hrank
                (disturbed_of_leaves (.inl hleaves))
            next =>
              simp only [Option.some.injEq, Prod.mk.injEq] at hstep
              obtain ⟨rfl, rfl⟩ := hstep
              simpa using haccounts.claim hrank none (by
                simp [held, hpc, owed, owedBefore])
        | claimed blockId =>
            simp only [hpc] at hstep
            split at hstep
            next hleaves =>
              simp only [Option.some.injEq, Prod.mk.injEq] at hstep
              obtain ⟨rfl, rfl⟩ := hstep
              simpa using haccounts.leave hrank
                (disturbed_of_leaves (.inr ⟨rank, hleaves⟩))
            next =>
              split at hstep <;>
                simp only [Option.some.injEq, Prod.mk.injEq] at hstep <;>
                obtain ⟨rfl, rfl⟩ := hstep
              · exact haccounts.throw hrank hpc
              · exact haccounts.run hrank hpc
        | ran blockId =>
            simp only [hpc, Option.some.injEq, Prod.mk.injEq] at hstep
            obtain ⟨rfl, rfl⟩ := hstep
            simpa using haccounts.claim hrank (some blockId) (by
              simp [held, hpc, owed, owedBefore])
        | returned => simp [hpc] at hstep

theorem accounts_of_reaches {dispatch : Dispatch} {stale : ℕ}
    {trace : List BlockRun} {state : RunState}
    (run : Reaches dispatch.machine (dispatch.start stale) trace state) :
    Accounts dispatch trace state :=
  run.invariant (Accounts dispatch) (Accounts.start dispatch stale)
    fun haccounts _ hstep => haccounts.next hstep

/-! ## Every rank leaves -/

/-- A bound on the steps of a rank, given what it owes. -/
def rankSteps (dispatch : Dispatch) (rank : ℕ) (pc : RankPc) : ℕ :=
  2 * (owed dispatch rank pc).length +
    match pc with
    | .entered => 1
    | .claimed _ => 0
    | .ran _ => 1
    | .returned => 0

/-- A bound on the steps the ranks have left. -/
def stepsLeft (dispatch : Dispatch) (state : RunState) : ℕ :=
  ∑ rank ∈ Finset.range dispatch.desc.participants,
    rankSteps dispatch rank (state.ranks rank) +
  2 * (tailBlocks dispatch state.nextBlock).length

theorem sum_rankSteps_at (dispatch : Dispatch) (state : RunState) {rank : ℕ}
    (hrank : rank < dispatch.desc.participants) (pc : RankPc) :
    ∑ other ∈ Finset.range dispatch.desc.participants,
        rankSteps dispatch other ((state.at rank pc).ranks other) +
      rankSteps dispatch rank (state.ranks rank) =
    ∑ other ∈ Finset.range dispatch.desc.participants,
        rankSteps dispatch other (state.ranks other) +
      rankSteps dispatch rank pc := by
  have hmem := Finset.mem_range.2 hrank
  have hothers :
      ∑ other ∈ (Finset.range dispatch.desc.participants).erase rank,
        rankSteps dispatch other ((state.at rank pc).ranks other) =
      ∑ other ∈ (Finset.range dispatch.desc.participants).erase rank,
        rankSteps dispatch other (state.ranks other) := by
    refine Finset.sum_congr rfl fun other hother => ?_
    simp [RunState.at, Finset.ne_of_mem_erase hother]
  have hself : (state.at rank pc).ranks rank = pc := by simp [RunState.at]
  rw [← Finset.add_sum_erase _ _ hmem, ← Finset.add_sum_erase _ _ hmem,
    hothers, hself]
  omega

theorem stepsLeft_at (dispatch : Dispatch) (state : RunState) {rank : ℕ}
    (hrank : rank < dispatch.desc.participants) (pc : RankPc) :
    stepsLeft dispatch (state.at rank pc) +
        rankSteps dispatch rank (state.ranks rank) =
      stepsLeft dispatch state + rankSteps dispatch rank pc := by
  have hsum := sum_rankSteps_at dispatch state hrank pc
  have hcounter : (state.at rank pc).nextBlock = state.nextBlock := rfl
  rw [stepsLeft, stepsLeft, hcounter]
  omega

theorem stepsLeft_claim (dispatch : Dispatch) (state : RunState) {rank : ℕ}
    (hrank : rank < dispatch.desc.participants) (prevIdx : Option ℕ)
    (hsteps : rankSteps dispatch rank (state.ranks rank) =
      2 * (owedBefore dispatch rank prevIdx).length + 1) :
    stepsLeft dispatch (dispatch.claim state rank prevIdx) <
      stepsLeft dispatch state := by
  have hconserve := congrArg List.length
    (claim_conserves dispatch hrank prevIdx state.nextBlock)
  simp only [List.length_append] at hconserve
  have hsum := sum_rankSteps_at dispatch state hrank
    ((dispatch.nextBlockId rank prevIdx state.nextBlock).1.elim
      .returned .claimed)
  have hafter : rankSteps dispatch rank
      ((dispatch.nextBlockId rank prevIdx state.nextBlock).1.elim
        .returned .claimed) =
      2 * (owedAfter dispatch rank
        (dispatch.nextBlockId rank prevIdx state.nextBlock).1).length := by
    cases (dispatch.nextBlockId rank prevIdx state.nextBlock).1 <;> rfl
  have hstate : (dispatch.claim state rank prevIdx).ranks = (state.at rank
      ((dispatch.nextBlockId rank prevIdx state.nextBlock).1.elim
        .returned .claimed)).ranks := rfl
  have hcounter : (dispatch.claim state rank prevIdx).nextBlock =
      (dispatch.nextBlockId rank prevIdx state.nextBlock).2 := rfl
  rw [stepsLeft, stepsLeft, hstate, hcounter]
  omega

theorem stepsLeft_leave (dispatch : Dispatch) (state : RunState) {rank : ℕ}
    (hrank : rank < dispatch.desc.participants)
    (hsteps : 0 < rankSteps dispatch rank (state.ranks rank)) :
    stepsLeft dispatch (state.at rank .returned) <
      stepsLeft dispatch state := by
  have hat := stepsLeft_at dispatch state hrank .returned
  have hnone : rankSteps dispatch rank .returned = 0 := rfl
  omega

/-- Every step of a rank uses up one of the steps left. -/
theorem stepsLeft_less {dispatch : Dispatch} {state after : RunState}
    {rank : ℕ} {event : Option BlockRun}
    (hstep : dispatch.machine.step state (.rank rank) = some (after, event)) :
    stepsLeft dispatch after < stepsLeft dispatch state := by
  simp only [Dispatch.machine, Dispatch.step] at hstep
  split at hstep
  · simp at hstep
  next hinside =>
    have hrank : rank < dispatch.desc.participants := by omega
    cases hpc : state.ranks rank with
    | entered =>
        simp only [hpc] at hstep
        split at hstep <;>
          simp only [Option.some.injEq, Prod.mk.injEq] at hstep <;>
          obtain ⟨rfl, -⟩ := hstep
        · exact stepsLeft_leave dispatch state hrank (by
            simp [hpc, rankSteps])
        · exact stepsLeft_claim dispatch state hrank none (by
            rw [hpc]
            rfl)
    | claimed blockId =>
        have hclaimed : rankSteps dispatch rank (state.ranks rank) =
            2 * (blocksAfter dispatch rank blockId).length + 2 := by
          rw [hpc]
          rfl
        simp only [hpc] at hstep
        split at hstep
        next =>
          simp only [Option.some.injEq, Prod.mk.injEq] at hstep
          obtain ⟨rfl, -⟩ := hstep
          exact stepsLeft_leave dispatch state hrank (by omega)
        next =>
          split at hstep <;>
            simp only [Option.some.injEq, Prod.mk.injEq] at hstep <;>
            obtain ⟨rfl, -⟩ := hstep
          · exact stepsLeft_leave dispatch state hrank (by omega)
          · have hat := stepsLeft_at dispatch state hrank (.ran blockId)
            have hran : rankSteps dispatch rank (.ran blockId) =
                2 * (blocksAfter dispatch rank blockId).length + 1 := rfl
            omega
    | ran blockId =>
        simp only [hpc, Option.some.injEq, Prod.mk.injEq] at hstep
        obtain ⟨rfl, -⟩ := hstep
        exact stepsLeft_claim dispatch state hrank (some blockId) (by
          rw [hpc]
          rfl)
    | returned => simp [hpc] at hstep

/-- A rank that has not left has a step. -/
theorem step_enabled (dispatch : Dispatch) {state : RunState}
    (hunfinished : ¬ dispatch.Finished state) :
    ∃ rank after event,
      dispatch.machine.step state (.rank rank) = some (after, event) := by
  simp only [Dispatch.Finished] at hunfinished
  push Not at hunfinished
  obtain ⟨rank, hrank, hpc⟩ := hunfinished
  refine ⟨rank, ?_⟩
  have hinside : ¬ dispatch.desc.participants ≤ rank := by omega
  simp only [Dispatch.machine, Dispatch.step, hinside, if_false]
  cases hcase : state.ranks rank with
  | entered =>
      simp only
      split <;> exact ⟨_, _, rfl⟩
  | claimed blockId =>
      simp only
      split
      · exact ⟨_, _, rfl⟩
      · split <;> exact ⟨_, _, rfl⟩
  | ran blockId => exact ⟨_, _, rfl⟩
  | returned => exact absurd hcase hpc

/-- From every state the ranks can run to the end. -/
theorem ranks_complete (dispatch : Dispatch) (state : RunState) :
    ∃ trace last,
      Run dispatch.machine (fun _ action => ∃ rank, action = .rank rank)
        state trace last ∧ dispatch.Finished last := by
  refine exists_completion (stepsLeft dispatch) (fun _ => True) ?_ ?_ ?_
    trivial
  · intro state _ hunfinished
    obtain ⟨rank, after, event, hstep⟩ := step_enabled dispatch hunfinished
    exact ⟨.rank rank, after, event, ⟨rank, rfl⟩, hstep⟩
  · intros
    trivial
  · rintro state action after event _ ⟨rank, rfl⟩ hstep
    exact stepsLeft_less hstep

/-! ## Coverage -/

/-- In a finished undisturbed dispatch nothing is owed any more. -/
theorem count_of_finished {dispatch : Dispatch} {trace : List BlockRun}
    {state : RunState} (haccounts : Accounts dispatch trace state)
    (hfinished : dispatch.Finished state) (hclean : state.Undisturbed)
    (blockId : ℕ) :
    (trace.map BlockRun.blockId).count blockId =
      (List.range dispatch.desc.blockCount).count blockId := by
  have hpos := dispatch.desc.participants_pos
  have htail := haccounts.drained hclean 0 hpos (hfinished 0 hpos)
  have hheld : census dispatch.desc.participants (single blockId)
      (held dispatch state) = 0 := by
    refine census_single_eq_zero fun rank hrank hmem => ?_
    simp [held, hfinished rank hrank, owed] at hmem
  have hexact := haccounts.exact hclean blockId
  rw [accounted, hheld, htail, List.count_nil] at hexact
  omega

theorem blockIds_perm {dispatch : Dispatch} {trace : List BlockRun}
    {state : RunState} (haccounts : Accounts dispatch trace state)
    (hfinished : dispatch.Finished state) (hclean : state.Undisturbed) :
    (trace.map BlockRun.blockId).Perm
      (List.range dispatch.desc.blockCount) :=
  List.perm_iff_count.2 (count_of_finished haccounts hfinished hclean)

theorem ranges_eq {dispatch : Dispatch} {trace : List BlockRun}
    {state : RunState} (haccounts : Accounts dispatch trace state) :
    trace.map BlockRun.range =
      (trace.map BlockRun.blockId).map dispatch.desc.blockRange := by
  rw [List.map_map]
  refine List.map_congr_left fun blockRun hmem => ?_
  have heq := haccounts.ranges blockRun hmem
  simpa [BlockRun.range, JobDescriptor.blockRun] using
    congrArg BlockRun.range heq

theorem ranges_perm {dispatch : Dispatch} {trace : List BlockRun}
    {state : RunState} (haccounts : Accounts dispatch trace state)
    (hfinished : dispatch.Finished state) (hclean : state.Undisturbed) :
    (trace.map BlockRun.range).Perm
      ((List.range dispatch.desc.blockCount).map
        dispatch.desc.blockRange) := by
  rw [ranges_eq haccounts]
  exact (blockIds_perm haccounts hfinished hclean).map _

/-- Whatever the share, the runners of the ranks and the order of their
claims: no block is run twice, only blocks of the dispatch are run, every
dispatch can run to its end, and at the end of one that nothing disturbed each
block was run exactly once, on the ranges any other share or runners would
give. -/
theorem every_block_runs_once (dispatch : Dispatch) (stale : ℕ)
    {trace : List BlockRun} {state : RunState}
    (run : Reaches dispatch.machine (dispatch.start stale) trace state) :
    (trace.map BlockRun.blockId).Nodup ∧
    (∀ blockRun ∈ trace, blockRun.blockId < dispatch.desc.blockCount ∧
      blockRun.range = dispatch.desc.blockRange blockRun.blockId) ∧
    (∃ later last,
      Run dispatch.machine (fun _ action => ∃ rank, action = .rank rank)
        state later last ∧ dispatch.Finished last) ∧
    (dispatch.Finished state → state.Undisturbed →
      (trace.map BlockRun.blockId).Perm
        (List.range dispatch.desc.blockCount) ∧
      ∀ (other : Dispatch) (stale' : ℕ) (trace' : List BlockRun)
        (state' : RunState), other.desc = dispatch.desc →
        Reaches other.machine (other.start stale') trace' state' →
        other.Finished state' → state'.Undisturbed →
        (trace.map BlockRun.range).Perm (trace'.map BlockRun.range)) := by
  have haccounts := accounts_of_reaches run
  have honce : ∀ blockId, (trace.map BlockRun.blockId).count blockId ≤
      (List.range dispatch.desc.blockCount).count blockId := by
    intro blockId
    have := haccounts.once blockId
    rw [accounted] at this
    omega
  refine ⟨?_, ?_, ranks_complete dispatch state, ?_⟩
  · refine List.nodup_iff_count_le_one.2 fun blockId => ?_
    exact (honce blockId).trans
      (List.nodup_iff_count_le_one.1 List.nodup_range blockId)
  · intro blockRun hmem
    constructor
    · have hcount := List.count_pos_iff.2
        (List.mem_map_of_mem (f := BlockRun.blockId) hmem)
      exact List.mem_range.1
        (List.count_pos_iff.1 (hcount.trans_le (honce blockRun.blockId)))
    · exact congrArg BlockRun.range (haccounts.ranges blockRun hmem)
  · intro hfinished hclean
    refine ⟨blockIds_perm haccounts hfinished hclean, ?_⟩
    intro other stale' trace' state' hdesc run' hfinished' hclean'
    have hranges' := ranges_perm (accounts_of_reaches run') hfinished' hclean'
    rw [hdesc] at hranges'
    exact (ranges_perm haccounts hfinished hclean).trans hranges'.symm

/-! ## A dispatch with a mixed set of runners -/

/-- Five dynamic blocks of eight indices on two ranks: slot 0 runs the hinted
loop and the worker the untyped one. -/
def mixedDispatch : Dispatch where
  desc :=
    { first := 3, last := 40, chunk := 8, blockCount := 5, participants := 2,
      participants_pos := Nat.zero_lt_two }
  share := .balanced .dynamicChunked fun rank =>
    if rank = 0 then .runPartitionTypedHinted else .runPartition
  cancellationActive := false
  bodyNoexcept := true
  throws := fun _ => false
  noexcept_throws := fun _ _ => rfl

/-- The worker takes block 1 and two of the tail before slot 0 runs. -/
def mixedSchedule : List Action :=
  List.flatten [List.replicate 5 (.rank 1), [.rank 0],
    List.replicate 3 (.rank 1), List.replicate 2 (.rank 0), [.rank 1]]

theorem every_block_runs_once_mixedDispatch :
    ∃ trace state,
      Reaches mixedDispatch.machine (mixedDispatch.start 77) trace state ∧
      mixedDispatch.Finished state ∧ state.Undisturbed ∧
      (trace.map BlockRun.blockId).Perm (List.range 5) := by
  obtain ⟨trace, state, run, hcheck⟩ := reaches_of_check
    mixedDispatch.machine (mixedDispatch.start 77) mixedSchedule
    (fun _ state => decide (mixedDispatch.Finished state) &&
      decide state.Undisturbed) (by decide +kernel)
  simp only [Bool.and_eq_true, decide_eq_true_eq] at hcheck
  have hcover := every_block_runs_once mixedDispatch 77 run
  exact ⟨trace, state, run, hcheck.1, hcheck.2,
    (hcover.2.2.2 hcheck.1 hcheck.2).1⟩

end Citor.BlockCoverage
