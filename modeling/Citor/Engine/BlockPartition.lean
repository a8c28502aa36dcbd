import Mathlib

/-!
# Blocks and the ranks that run them

A dispatch splits `[first, last)` into `blockCount` blocks of `chunk` indices
and gives every rank below `participants` a list of block ids: strided for the
static balance, one contiguous span for the typed reducer.
-/

namespace Citor.BlockPartition

/-- `ceilDiv`, without computing `a + b - 1`. -/
def ceilDiv (a b : ℕ) : ℕ :=
  a / b + if a % b ≠ 0 then 1 else 0

theorem ceilDiv_pos {a b : ℕ} (ha : 0 < a) : 0 < ceilDiv a b := by
  unfold ceilDiv
  split
  · exact Nat.succ_pos _
  next hdvd =>
    have hmod := Nat.div_add_mod a b
    apply Nat.pos_of_ne_zero
    intro hzero
    simp only [Nat.add_zero] at hzero
    rw [hzero] at hmod
    omega

/-- The first index of a block. -/
def blockLo (first chunk blockId : ℕ) : ℕ :=
  first + blockId * chunk

/-- One past the last index of a block. -/
def blockHi (first last chunk blockId : ℕ) : ℕ :=
  min (blockLo first chunk blockId + chunk) last

/-- The id a reducer body recovers from the block's first index. -/
theorem blockLo_sub_div {chunk : ℕ} (hchunk : 0 < chunk) (first blockId : ℕ) :
    (blockLo first chunk blockId - first) / chunk = blockId := by
  have hoffset : blockLo first chunk blockId - first = blockId * chunk := by
    simp [blockLo]
  rw [hoffset, Nat.mul_div_cancel _ hchunk]

/-- Every index of the range lies in the block its offset says, and in no
other. -/
theorem mem_block_iff {first last chunk index : ℕ} (hchunk : 0 < chunk)
    (hfirst : first ≤ index) (hlast : index < last) (blockId : ℕ) :
    (blockLo first chunk blockId ≤ index ∧
        index < blockHi first last chunk blockId) ↔
      (index - first) / chunk = blockId := by
  rw [Nat.div_eq_iff hchunk, blockHi, blockLo, lt_min_iff]
  omega

theorem block_lt_ceilDiv {first last chunk index : ℕ} (hchunk : 0 < chunk)
    (hfirst : first ≤ index) (hlast : index < last) :
    (index - first) / chunk < ceilDiv (last - first) chunk := by
  have hsplit := Nat.div_add_mod (last - first) chunk
  rw [Nat.div_lt_iff_lt_mul hchunk, ceilDiv]
  have hcomm : (last - first) / chunk * chunk =
      chunk * ((last - first) / chunk) := Nat.mul_comm _ _
  have hmod := Nat.mod_lt (last - first) hchunk
  split
  · rw [Nat.add_mul, Nat.one_mul]
    omega
  · rw [Nat.add_zero]
    omega

/-! ## The static stride -/

/-- `nextTypedBlock` and `BlockClaim::next` for the static balance: the rank's
own id first, then `participants` further. -/
def nextStaticBlock (blockCount participants rank : ℕ) :
    Option ℕ → Option ℕ
  | none => if rank < blockCount then some rank else none
  | some prevIdx =>
      if prevIdx + participants < blockCount then some (prevIdx + participants)
      else none

/-- The blocks of a rank from `blockId` on. -/
def stridedFrom (blockCount participants blockId : ℕ) : List ℕ :=
  if blockId < blockCount ∧ 0 < participants then
    blockId :: stridedFrom blockCount participants (blockId + participants)
  else []
termination_by blockCount - blockId

/-- The blocks a rank runs under the static balance. -/
def staticBlocks (blockCount participants rank : ℕ) : List ℕ :=
  stridedFrom blockCount participants rank

/-- The list is what repeated claims hand out. -/
theorem stridedFrom_eq_claims {participants : ℕ} (hpos : 0 < participants)
    (blockCount blockId : ℕ) (hblock : blockId < blockCount) :
    stridedFrom blockCount participants blockId =
      blockId :: (nextStaticBlock blockCount participants 0 (some blockId)).elim
        [] (stridedFrom blockCount participants) := by
  rw [stridedFrom]
  simp only [hblock, hpos, and_self, if_true, nextStaticBlock]
  split
  · rfl
  next hlast =>
    rw [stridedFrom]
    simp [hlast]

theorem mem_stridedFrom {blockCount participants : ℕ}
    (hpos : 0 < participants) (start blockId : ℕ) :
    blockId ∈ stridedFrom blockCount participants start ↔
      start ≤ blockId ∧ blockId < blockCount ∧
        participants ∣ blockId - start := by
  induction start using stridedFrom.induct blockCount participants with
  | case1 start hstart ih =>
      rw [stridedFrom]
      simp only [hstart, and_self, if_true, List.mem_cons, ih]
      constructor
      · rintro (rfl | ⟨hle, hlt, hdvd⟩)
        · simp [hstart.1]
        · refine ⟨by omega, hlt, ?_⟩
          have hsum : blockId - start =
              (blockId - (start + participants)) + participants := by omega
          rw [hsum]
          exact Nat.dvd_add hdvd (Nat.dvd_refl _)
      · rintro ⟨hle, hlt, hdvd⟩
        rcases Nat.eq_or_lt_of_le hle with hsame | hless
        · exact .inl hsame.symm
        · have hfar : participants ≤ blockId - start :=
            Nat.le_of_dvd (by omega) hdvd
          refine .inr ⟨by omega, hlt, ?_⟩
          have hsum : blockId - (start + participants) =
              (blockId - start) - participants := by omega
          rw [hsum]
          exact Nat.dvd_sub hdvd (Nat.dvd_refl _)
  | case2 start hend =>
      rw [stridedFrom]
      simp only [hend, if_false, List.not_mem_nil, false_iff]
      rintro ⟨hle, hlt, -⟩
      exact hend ⟨by omega, hpos⟩

/-- Every block is on some rank's stride, and no other id is. -/
theorem mem_staticBlocks_iff {participants : ℕ} (hpos : 0 < participants)
    (blockCount blockId : ℕ) :
    (∃ rank < participants,
        blockId ∈ staticBlocks blockCount participants rank) ↔
      blockId < blockCount := by
  constructor
  · rintro ⟨rank, -, hmem⟩
    exact ((mem_stridedFrom hpos _ _).mp hmem).2.1
  · intro hblock
    refine ⟨blockId % participants, Nat.mod_lt _ hpos, ?_⟩
    refine (mem_stridedFrom hpos _ _).mpr
      ⟨Nat.mod_le _ _, hblock, Nat.dvd_sub_mod blockId⟩

/-! ## Contiguous spans -/

/-- `contiguousRankBlockSpan`: begin and end of the rank's block ids. -/
def contiguousRankBlockSpan (blockCount participants rank : ℕ) : ℕ × ℕ :=
  if participants ≤ rank then (blockCount, blockCount)
  else
    let base := blockCount / participants
    let extra := blockCount % participants
    let begin := rank * base + min rank extra
    (begin, begin + base + if rank < extra then 1 else 0)

/-- The blocks a rank runs under the contiguous partition. -/
def contiguousBlocks (blockCount participants rank : ℕ) : List ℕ :=
  let (begin, stop) := contiguousRankBlockSpan blockCount participants rank
  List.range' begin (stop - begin)

/-- Where a rank's span begins; it ends where the next one's begins. -/
def spanBegin (blockCount participants rank : ℕ) : ℕ :=
  rank * (blockCount / participants) + min rank (blockCount % participants)

theorem contiguousRankBlockSpan_eq {blockCount participants rank : ℕ}
    (hrank : rank < participants) :
    contiguousRankBlockSpan blockCount participants rank =
      (spanBegin blockCount participants rank,
        spanBegin blockCount participants (rank + 1)) := by
  have hnot : ¬ participants ≤ rank := by omega
  simp only [contiguousRankBlockSpan, hnot, if_false, spanBegin, Prod.mk.injEq,
    true_and]
  rw [Nat.succ_mul]
  split <;> omega

theorem spanBegin_zero (blockCount participants : ℕ) :
    spanBegin blockCount participants 0 = 0 := by
  simp [spanBegin]

theorem spanBegin_participants {participants : ℕ} (hpos : 0 < participants)
    (blockCount : ℕ) :
    spanBegin blockCount participants participants = blockCount := by
  have hmod := Nat.mod_lt blockCount hpos
  have hdiv := Nat.div_add_mod blockCount participants
  simp only [spanBegin]
  omega

theorem spanBegin_mono (blockCount participants : ℕ) {left right : ℕ}
    (hle : left ≤ right) :
    spanBegin blockCount participants left ≤
      spanBegin blockCount participants right := by
  have := Nat.mul_le_mul_right (blockCount / participants) hle
  simp only [spanBegin]
  omega

theorem mem_contiguousBlocks {blockCount participants rank blockId : ℕ}
    (hrank : rank < participants) :
    blockId ∈ contiguousBlocks blockCount participants rank ↔
      spanBegin blockCount participants rank ≤ blockId ∧
        blockId < spanBegin blockCount participants (rank + 1) := by
  have hmono := spanBegin_mono blockCount participants (Nat.le_succ rank)
  simp only [contiguousBlocks, contiguousRankBlockSpan_eq hrank,
    List.mem_range'_1]
  omega

/-- Every block is in some rank's span, and no other id is. -/
theorem mem_contiguousBlocks_iff {participants : ℕ} (hpos : 0 < participants)
    (blockCount blockId : ℕ) :
    (∃ rank < participants,
        blockId ∈ contiguousBlocks blockCount participants rank) ↔
      blockId < blockCount := by
  constructor
  · rintro ⟨rank, hrank, hmem⟩
    have hend := ((mem_contiguousBlocks hrank).mp hmem).2
    have hlast := spanBegin_mono blockCount participants
      (show rank + 1 ≤ participants from hrank)
    rw [spanBegin_participants hpos] at hlast
    omega
  · intro hblock
    -- the last rank whose span has begun
    have hfound : ∀ bound ≤ participants,
        blockId < spanBegin blockCount participants bound →
        ∃ rank < bound, spanBegin blockCount participants rank ≤ blockId ∧
          blockId < spanBegin blockCount participants (rank + 1) := by
      intro bound
      induction bound with
      | zero => simp [spanBegin_zero]
      | succ bound ih =>
          intro hbound hbegun
          rcases Nat.lt_or_ge blockId
            (spanBegin blockCount participants bound) with hearlier | hhere
          · obtain ⟨rank, hrank, hspan⟩ := ih (by omega) hearlier
            exact ⟨rank, by omega, hspan⟩
          · exact ⟨bound, by omega, hhere, hbegun⟩
    have hend : blockId < spanBegin blockCount participants participants := by
      rwa [spanBegin_participants hpos]
    obtain ⟨rank, hrank, hspan⟩ := hfound participants le_rfl hend
    exact ⟨rank, hrank, (mem_contiguousBlocks hrank).mpr hspan⟩

end Citor.BlockPartition
