import Citor.Core.MachineWord
import Citor.Engine.BlockPartition

/-!
# Block arithmetic in 64 bits

The block shape, the tile bounds of the runners, the chunked inline loop and
the nested `parallelFor`, with every sum and product taken modulo `2 ^ 64`.
The ceiling divisions never wrap; the upper bound of the last tile may.
-/

namespace Citor.BlockArithmetic

open Citor.MachineWord

/-- A tile as the body receives it: first index and one past the last. -/
abbrev Tile := ℕ × ℕ

/-- `ceilDiv`. -/
def ceilDiv (a b : ℕ) : ℕ :=
  word (a / b + if a % b ≠ 0 then 1 else 0)

/-- What `fillBlockShape` stores in the descriptor. -/
structure BlockShape where
  chunk : ℕ
  blockCount : ℕ
  deriving DecidableEq, Repr

def fillBlockShape (n participants hintChunk : ℕ) (oversubscribe : Bool) :
    BlockShape :=
  let denom := if oversubscribe then word (participants * 2) else participants
  let chunk := if hintChunk = 0 then ceilDiv n denom else hintChunk
  ⟨chunk, ceilDiv n chunk⟩

/-- The bounds that the runners derive for a block. -/
def tile (first last chunk blockId : ℕ) : Tile :=
  let lo := word (first + word (blockId * chunk))
  (lo, min (word (lo + chunk)) last)

/-- The tiles of the blocks, by block id. -/
def blockTiles (first last : ℕ) (shape : BlockShape) : List Tile :=
  (List.range shape.blockCount).map (tile first last shape.chunk)

/-- The tiles of a `parallelFor`: a shape of one block is not dispatched, the
body gets the range itself. -/
def dispatchTiles (first last : ℕ) (shape : BlockShape) : List Tile :=
  if shape.blockCount ≤ 1 then [(first, last)]
  else blockTiles first last shape

/-- The loop of `runInlineChunked`; `stopRequested` answers the polls of the
token. -/
def inlineLoop (last chunk : ℕ) (cancelChecks : Bool)
    (stopRequested : ℕ → Bool) : ℕ → ℕ → ℕ → Option (List Tile)
  | 0, _, _ => none
  | fuel + 1, poll, lo =>
      if lo < last then
        if cancelChecks && stopRequested poll then some []
        else
          (inlineLoop last chunk cancelChecks stopRequested fuel (poll + 1)
            (word (lo + chunk))).map ((lo, min (word (lo + chunk)) last) :: ·)
      else some []

/-- The tiles that `runInlineChunked` visits, if the fuel lasts. -/
def runInlineChunked (fuel first last chunk : ℕ) (cancelChecks : Bool)
    (stopRequested : ℕ → Bool) : Option (List Tile) :=
  if stopRequested 0 then some []
  else if chunk = 0 ∨ last - first ≤ chunk then some [(first, last)]
  else inlineLoop last chunk cancelChecks stopRequested fuel 1 first

/-- The block shape of the nested `parallelFor`. -/
def nestedShape (n participants hintChunk : ℕ) : BlockShape :=
  let derived := ceilDiv n (word (participants * 2))
  let chunk :=
    if hintChunk = 0 then if derived = 0 then 1 else derived else hintChunk
  ⟨chunk, ceilDiv n chunk⟩

/-- The tiles that the nested `parallelFor` hands to the body, by block id. -/
def nestedTiles (first last participants hintChunk : ℕ) : List Tile :=
  let shape := nestedShape (last - first) participants hintChunk
  if shape.blockCount ≤ 1 then [(first, last)]
  else (blockTiles first last shape).filter fun tile => tile.1 < tile.2

/-- Non-empty tiles, one behind the other, from `lo` to `last`. -/
def Partitions : ℕ → ℕ → List Tile → Prop
  | lo, last, [] => lo = last
  | lo, last, tile :: rest =>
      tile.1 = lo ∧ tile.1 < tile.2 ∧ Partitions tile.2 last rest

/-- The blocks of a dispatch and those of the nested path partition the range,
and the inline loop ends and visits the same tiles. -/
structure BlocksRight (first last participants hintChunk : ℕ)
    (oversubscribe : Bool) : Prop where
  blocks : Partitions first last (dispatchTiles first last
    (fillBlockShape (last - first) participants hintChunk oversubscribe))
  inline : ∀ cancelChecks, ∃ fuel,
    runInlineChunked fuel first last hintChunk cancelChecks (fun _ => false) =
      some (dispatchTiles first last
        (fillBlockShape (last - first) participants hintChunk oversubscribe))
  nested : Partitions first last
      (nestedTiles first last participants hintChunk) ∧
    (nestedTiles first last participants hintChunk).length =
      (nestedShape (last - first) participants hintChunk).blockCount

/-- The end of the last block, before it is clipped, fits a machine word. -/
def Fits (first : ℕ) (shape : BlockShape) : Prop :=
  first + shape.blockCount * shape.chunk < 2 ^ 64

instance (first : ℕ) (shape : BlockShape) : Decidable (Fits first shape) :=
  inferInstanceAs (Decidable (_ < _))

/-! ## Shapes -/

section Shapes

variable {n participants hintChunk a b chunk blockId : ℕ}

/-- The ceiling division does not wrap. -/
theorem ceilDiv_eq (ha : a < 2 ^ 64) (hb : 0 < b) :
    ceilDiv a b = BlockPartition.ceilDiv a b := by
  refine word_of_lt ?_
  have hdiv := Nat.div_add_mod a b
  have hle : a / b ≤ b * (a / b) := Nat.le_mul_of_pos_left _ hb
  split <;> omega

theorem ceilDiv_pos (ha : a < 2 ^ 64) (hpos : 0 < a) (hb : 0 < b) :
    0 < ceilDiv a b := by
  rw [ceilDiv_eq ha hb]
  exact BlockPartition.ceilDiv_pos hpos

theorem ceilDiv_lt (a b : ℕ) : ceilDiv a b < 2 ^ 64 :=
  word_lt _

/-- A block starts inside the range. -/
theorem mul_lt_of_lt_ceilDiv (hn : n < 2 ^ 64) (hchunk : 0 < chunk)
    (hblock : blockId < ceilDiv n chunk) : blockId * chunk < n := by
  rw [ceilDiv_eq hn hchunk, BlockPartition.ceilDiv] at hblock
  have hdiv := Nat.div_add_mod n chunk
  split at hblock
  · have hle : blockId * chunk ≤ n / chunk * chunk :=
      Nat.mul_le_mul_right _ (by omega)
    rw [Nat.mul_comm (n / chunk)] at hle
    omega
  · have hle : (blockId + 1) * chunk ≤ n / chunk * chunk :=
      Nat.mul_le_mul_right _ (by omega)
    rw [Nat.mul_comm (n / chunk), Nat.add_mul] at hle
    omega

/-- The blocks reach the end of the range. -/
theorem le_ceilDiv_mul (hn : n < 2 ^ 64) (hchunk : 0 < chunk) :
    n ≤ ceilDiv n chunk * chunk := by
  rw [ceilDiv_eq hn hchunk, BlockPartition.ceilDiv]
  have hdiv := Nat.div_add_mod n chunk
  have hmod := Nat.mod_lt n hchunk
  rw [Nat.add_mul, Nat.mul_comm (n / chunk)]
  split <;> omega

theorem ceilDiv_eq_one (hn : n < 2 ^ 64) (hpos : 0 < n) (hle : n ≤ chunk) :
    ceilDiv n chunk = 1 := by
  rw [ceilDiv_eq hn (hpos.trans_le hle), BlockPartition.ceilDiv]
  rcases Nat.lt_or_eq_of_le hle with hless | rfl
  · simp [Nat.div_eq_of_lt hless, Nat.mod_eq_of_lt hless, hpos.ne']
  · simp [Nat.div_self hpos]

theorem word_mul_two (hparticipants : participants < 2 ^ 32) :
    word (participants * 2) = participants * 2 :=
  word_of_lt (by omega)

theorem fillBlockShape_chunk_pos (hn : n < 2 ^ 64) (hpos : 0 < n)
    (hparticipants : 0 < participants ∧ participants < 2 ^ 32)
    (oversubscribe : Bool) :
    0 < (fillBlockShape n participants hintChunk oversubscribe).chunk := by
  simp only [fillBlockShape]
  split
  · refine ceilDiv_pos hn hpos ?_
    rw [word_mul_two hparticipants.2]
    split <;> omega
  · omega

/-- The nested path derives the oversubscribed shape. -/
theorem nestedShape_eq (hn : n < 2 ^ 64) (hpos : 0 < n)
    (hparticipants : 0 < participants ∧ participants < 2 ^ 32) :
    nestedShape n participants hintChunk =
      fillBlockShape n participants hintChunk true := by
  have hderived : 0 < ceilDiv n (word (participants * 2)) := by
    refine ceilDiv_pos hn hpos ?_
    rw [word_mul_two hparticipants.2]
    omega
  simp [nestedShape, fillBlockShape, hderived.ne']

end Shapes

/-! ## Tiles -/

section Tiles

variable {first last chunk blockId : ℕ}

/-- The lower bound of a tile never wraps. -/
theorem tile_lo (hlast : last < 2 ^ 64) (hrange : first < last)
    (hchunk : 0 < chunk) (hblock : blockId < ceilDiv (last - first) chunk) :
    (tile first last chunk blockId).1 = first + blockId * chunk := by
  have hinside := mul_lt_of_lt_ceilDiv (by omega) hchunk hblock
  rw [tile, word_of_lt (show blockId * chunk < 2 ^ 64 by omega)]
  exact word_of_lt (by omega)

/-- Nor does the upper bound, where the last block's end fits. -/
theorem tile_eq (hlast : last < 2 ^ 64) (hrange : first < last)
    (hchunk : 0 < chunk) (hblock : blockId < ceilDiv (last - first) chunk)
    (hfits : first + ceilDiv (last - first) chunk * chunk < 2 ^ 64) :
    tile first last chunk blockId =
      (first + blockId * chunk, min (first + (blockId + 1) * chunk) last) := by
  have hlo := tile_lo hlast hrange hchunk hblock
  have hhi : (blockId + 1) * chunk ≤ ceilDiv (last - first) chunk * chunk :=
    Nat.mul_le_mul_right _ hblock
  have hsum : first + blockId * chunk + chunk =
      first + (blockId + 1) * chunk := by
    rw [Nat.succ_mul, Nat.add_assoc]
  refine Prod.ext hlo ?_
  change min (word ((tile first last chunk blockId).1 + chunk)) last = _
  rw [hlo, hsum, word_of_lt (by omega)]

/-- From any block on, the tiles partition what is left. -/
theorem partitions_from (hlast : last < 2 ^ 64) (hrange : first < last)
    (hchunk : 0 < chunk)
    (hfits : first + ceilDiv (last - first) chunk * chunk < 2 ^ 64)
    (count blockId : ℕ) (hcount : blockId + count =
      ceilDiv (last - first) chunk) :
    Partitions (min (first + blockId * chunk) last) last
      ((List.range' blockId count).map (tile first last chunk)) := by
  induction count generalizing blockId with
  | zero =>
      have hreach := le_ceilDiv_mul (n := last - first) (by omega) hchunk
      rw [← hcount, Nat.add_zero] at hreach
      simp only [List.range'_zero, List.map_nil, Partitions]
      omega
  | succ count ih =>
      have hblock : blockId < ceilDiv (last - first) chunk := by omega
      have hinside := mul_lt_of_lt_ceilDiv (by omega) hchunk hblock
      have hnext := ih (blockId + 1) (by omega)
      rw [List.range'_succ, List.map_cons,
        tile_eq hlast hrange hchunk hblock hfits]
      refine ⟨by omega, ?_, hnext⟩
      rw [Nat.succ_mul]
      omega

theorem Partitions.nonempty {lo : ℕ} {tiles : List Tile}
    (hpartitions : Partitions lo last tiles) :
    ∀ tile ∈ tiles, tile.1 < tile.2 := by
  induction tiles generalizing lo with
  | nil => simp
  | cons head rest ih =>
      obtain ⟨-, hhead, hrest⟩ := hpartitions
      intro tile htile
      rcases List.mem_cons.1 htile with rfl | hmem
      · exact hhead
      · exact ih hrest tile hmem

end Tiles

/-! ## When the arithmetic is right -/

section Right

variable {first last participants hintChunk : ℕ} {oversubscribe : Bool}
variable {shape : BlockShape}

/-- A shape that counts the blocks of its chunk. -/
structure BlockShape.Counts (shape : BlockShape) (n : ℕ) : Prop where
  chunk : 0 < shape.chunk
  word : shape.chunk < 2 ^ 64
  blockCount : shape.blockCount = ceilDiv n shape.chunk

theorem fillBlockShape_counts (hlast : last < 2 ^ 64) (hrange : first < last)
    (hparticipants : 0 < participants ∧ participants < 2 ^ 32)
    (hhint : hintChunk < 2 ^ 64) :
    (fillBlockShape (last - first) participants hintChunk
      oversubscribe).Counts (last - first) := by
  refine ⟨fillBlockShape_chunk_pos (by omega) (by omega) hparticipants
    oversubscribe, ?_, rfl⟩
  simp only [fillBlockShape]
  split
  · exact ceilDiv_lt _ _
  · exact hhint

/-- The tiles of a dispatch partition the range exactly if the last block's end
fits. -/
theorem blockTiles_partitions_iff (hlast : last < 2 ^ 64)
    (hrange : first < last) (hshape : shape.Counts (last - first)) :
    Partitions first last (blockTiles first last shape) ↔ Fits first shape := by
  obtain ⟨hchunk, hword, hcount⟩ := hshape
  have hpos := ceilDiv_pos (show last - first < 2 ^ 64 by omega) (by omega)
    hchunk
  constructor
  · intro hpartitions
    by_contra hwraps
    rw [Fits, hcount] at hwraps
    -- the last tile's upper bound has wrapped below its lower bound
    obtain ⟨blockId, hlastBlock⟩ := Nat.exists_eq_succ_of_ne_zero hpos.ne'
    have hblock : blockId < ceilDiv (last - first) shape.chunk := by omega
    have hlo := tile_lo hlast hrange hchunk hblock
    have hinside := mul_lt_of_lt_ceilDiv (show last - first < 2 ^ 64 by omega)
      hchunk hblock
    have hmem : tile first last shape.chunk blockId ∈
        blockTiles first last shape :=
      List.mem_map_of_mem (List.mem_range.2 (hcount ▸ hblock))
    have hless := hpartitions.nonempty _ hmem
    have hhi : (tile first last shape.chunk blockId).2 ≤
        word (first + blockId * shape.chunk + shape.chunk) := by
      rw [← hlo]
      exact min_le_left _ _
    rw [hlastBlock, Nat.succ_mul] at hwraps
    have hwrapped : word (first + blockId * shape.chunk + shape.chunk) <
        first + blockId * shape.chunk := by
      unfold word
      omega
    omega
  · intro hfits
    rw [Fits, hcount] at hfits
    have hall := partitions_from hlast hrange hchunk hfits
      (ceilDiv (last - first) shape.chunk) 0 (Nat.zero_add _)
    rw [blockTiles, hcount, List.range_eq_range']
    simpa [hrange.le] using hall

/-- The inline loop visits the tiles from any block on. -/
theorem inlineLoop_eq {chunk : ℕ} (hlast : last < 2 ^ 64)
    (hrange : first < last) (hchunk : 0 < chunk)
    (hfits : first + ceilDiv (last - first) chunk * chunk < 2 ^ 64)
    (cancelChecks : Bool) (count blockId poll : ℕ)
    (hcount : blockId + count = ceilDiv (last - first) chunk) :
    inlineLoop last chunk cancelChecks (fun _ => false) (count + 1) poll
        (first + blockId * chunk) =
      some ((List.range' blockId count).map (tile first last chunk)) := by
  induction count generalizing blockId poll with
  | zero =>
      have hreach := le_ceilDiv_mul (n := last - first) (by omega) hchunk
      rw [← hcount, Nat.add_zero] at hreach
      have hend : ¬ first + blockId * chunk < last := by omega
      simp [inlineLoop, hend]
  | succ count ih =>
      have hblock : blockId < ceilDiv (last - first) chunk := by omega
      have hinside := mul_lt_of_lt_ceilDiv (show last - first < 2 ^ 64 by omega)
        hchunk hblock
      have hstart : first + blockId * chunk < last := by omega
      have hhi : (blockId + 1) * chunk ≤ ceilDiv (last - first) chunk * chunk :=
        Nat.mul_le_mul_right _ hblock
      have hsum : word (first + blockId * chunk + chunk) =
          first + (blockId + 1) * chunk := by
        rw [Nat.succ_mul, ← Nat.add_assoc] at *
        exact word_of_lt (by omega)
      have hnext := ih (blockId + 1) (poll + 1) (by omega)
      rw [inlineLoop]
      simp only [hstart, if_true, Bool.and_false, Bool.false_eq_true, if_false,
        hsum, hnext, Option.map_some, List.range'_succ, List.map_cons,
        tile_eq hlast hrange hchunk hblock hfits]

/-- Where the blocks tile the whole word and the last one holds `last`, the
inline loop goes round for ever. -/
theorem inlineLoop_endless {chunk lo : ℕ} (hchunk : chunk ∣ 2 ^ 64)
    (hlo : chunk ∣ lo) (hword : lo < 2 ^ 64) (htop : 2 ^ 64 - chunk < last)
    (cancelChecks : Bool) (fuel poll : ℕ) :
    inlineLoop last chunk cancelChecks (fun _ => false) fuel poll lo = none := by
  induction fuel generalizing poll lo with
  | zero => rfl
  | succ fuel ih =>
      have hbelow : lo ≤ 2 ^ 64 - chunk := by
        have hgap := Nat.le_of_dvd (Nat.sub_pos_of_lt hword)
          (Nat.dvd_sub hchunk hlo)
        omega
      have hstart : lo < last := by omega
      have hnext : chunk ∣ word (lo + chunk) :=
        (Nat.dvd_mod_iff hchunk).2 (Nat.dvd_add hlo (Nat.dvd_refl _))
      rw [inlineLoop]
      simp [hstart, ih hnext (word_lt _)]

/-- The tiles of a `parallelFor` partition the range exactly if it has one block
or the last block's end fits. -/
theorem dispatchTiles_partitions_iff (hlast : last < 2 ^ 64)
    (hrange : first < last) (hshape : shape.Counts (last - first)) :
    Partitions first last (dispatchTiles first last shape) ↔
      shape.blockCount ≤ 1 ∨ Fits first shape := by
  by_cases hone : shape.blockCount ≤ 1
  · simp [dispatchTiles, hone, Partitions, hrange]
  · simp only [dispatchTiles, hone, if_false, false_or]
    exact blockTiles_partitions_iff hlast hrange hshape

/-- A chunk that reaches over the whole range makes one block, and no other
chunk does. -/
theorem BlockShape.Counts.blockCount_le_one_iff (hlast : last < 2 ^ 64)
    (hrange : first < last) (hshape : shape.Counts (last - first)) :
    shape.blockCount ≤ 1 ↔ last - first ≤ shape.chunk := by
  rw [hshape.blockCount]
  constructor
  · intro hone
    have hreach := le_ceilDiv_mul (n := last - first) (by omega) hshape.chunk
    calc last - first
        ≤ ceilDiv (last - first) shape.chunk * shape.chunk := hreach
      _ ≤ 1 * shape.chunk := Nat.mul_le_mul_right _ hone
      _ = shape.chunk := Nat.one_mul _
  · intro hwhole
    exact (ceilDiv_eq_one (by omega) (by omega) hwhole).le

/-- With one block, or with a chunk whose last block's end fits, the inline
path visits the same tiles. -/
theorem runInlineChunked_eq (hlast : last < 2 ^ 64) (hrange : first < last)
    (hshape : shape.Counts (last - first)) (hchunk : hintChunk = shape.chunk)
    (hfits : shape.blockCount ≤ 1 ∨ Fits first shape) (cancelChecks : Bool) :
    ∃ fuel, runInlineChunked fuel first last hintChunk cancelChecks
      (fun _ => false) = some (dispatchTiles first last shape) := by
  have hwhole := hshape.blockCount_le_one_iff hlast hrange
  subst hintChunk
  by_cases hone : shape.blockCount ≤ 1
  · refine ⟨0, ?_⟩
    simp [runInlineChunked, dispatchTiles, hone, hwhole.1 hone]
  · have hwide : first + ceilDiv (last - first) shape.chunk * shape.chunk <
        2 ^ 64 := by
      rw [← hshape.blockCount]
      exact hfits.resolve_left hone
    refine ⟨ceilDiv (last - first) shape.chunk + 1, ?_⟩
    have hloop := inlineLoop_eq hlast hrange hshape.chunk hwide cancelChecks
      (ceilDiv (last - first) shape.chunk) 0 1 (Nat.zero_add _)
    have hmany : ¬ (shape.chunk = 0 ∨ last - first ≤ shape.chunk) := by
      rintro (hzero | hless)
      · exact hshape.chunk.ne' hzero
      · exact hone (hwhole.2 hless)
    rw [dispatchTiles, if_neg hone]
    simp only [runInlineChunked, Bool.false_eq_true, if_false, hmany,
      blockTiles, hshape.blockCount, List.range_eq_range']
    simpa using hloop

/-- Without a chunk the inline path visits the range as one tile. -/
theorem runInlineChunked_zero (fuel : ℕ) (cancelChecks : Bool) :
    runInlineChunked fuel first last 0 cancelChecks (fun _ => false) =
      some [(first, last)] := by
  simp [runInlineChunked]

/-- So it visits the tiles of a dispatch only if that has one block. -/
theorem blockCount_le_one_of_dispatchTiles_eq
    (heq : dispatchTiles first last shape = [(first, last)]) :
    shape.blockCount ≤ 1 := by
  by_contra hmany
  have hlength := congrArg List.length heq
  simp [dispatchTiles, hmany, blockTiles] at hlength
  omega

/-- The nested path drops no tile exactly if it has one block or its last
block's end fits. -/
theorem nestedTiles_partitions_iff (hlast : last < 2 ^ 64)
    (hrange : first < last)
    (hparticipants : 0 < participants ∧ participants < 2 ^ 32)
    (hhint : hintChunk < 2 ^ 64) :
    (Partitions first last (nestedTiles first last participants hintChunk) ∧
        (nestedTiles first last participants hintChunk).length =
          (nestedShape (last - first) participants hintChunk).blockCount) ↔
      (nestedShape (last - first) participants hintChunk).blockCount ≤ 1 ∨
        Fits first (nestedShape (last - first) participants hintChunk) := by
  have hcounts : (fillBlockShape (last - first) participants hintChunk
      true).Counts (last - first) :=
    fillBlockShape_counts hlast hrange hparticipants hhint
  rw [← nestedShape_eq (by omega) (by omega) hparticipants] at hcounts
  set shape := nestedShape (last - first) participants hintChunk with hshape
  have hpos : 0 < shape.blockCount := by
    rw [hcounts.blockCount]
    exact ceilDiv_pos (by omega) (by omega) hcounts.chunk
  have hlength : (blockTiles first last shape).length = shape.blockCount := by
    simp [blockTiles]
  by_cases hone : shape.blockCount ≤ 1
  · have hsingle : nestedTiles first last participants hintChunk =
        [(first, last)] := by
      simp only [nestedTiles, ← hshape, hone, if_true]
    rw [hsingle]
    simp only [Partitions, hrange, hone, and_self, true_and, List.length_cons,
      List.length_nil, true_or, iff_true]
    omega
  · have hmany : nestedTiles first last participants hintChunk =
        (blockTiles first last shape).filter fun tile => tile.1 < tile.2 := by
      simp only [nestedTiles, ← hshape, hone, if_false]
    rw [hmany, ← blockTiles_partitions_iff hlast hrange hcounts]
    simp only [hone, false_or]
    constructor
    · rintro ⟨hpartitions, hkept⟩
      rw [← hlength] at hkept
      have hsame := List.filter_sublist.eq_of_length hkept
      rwa [hsame] at hpartitions
    · intro hpartitions
      have hsame : (blockTiles first last shape).filter
          (fun tile => tile.1 < tile.2) = blockTiles first last shape := by
        refine List.filter_eq_self.2 fun tile htile => ?_
        simpa using hpartitions.nonempty tile htile
      rw [hsame]
      exact ⟨hpartitions, hlength⟩

/-- The blocks are right exactly if a chunk is given or there is one block, and
the end of the last block fits a machine word unless there is one block, on the
nested path too. -/
theorem blocksRight_iff (hlast : last < 2 ^ 64) (hrange : first < last)
    (hparticipants : 0 < participants ∧ participants < 2 ^ 32)
    (hhint : hintChunk < 2 ^ 64) :
    BlocksRight first last participants hintChunk oversubscribe ↔
      (hintChunk ≠ 0 ∨ (fillBlockShape (last - first) participants hintChunk
        oversubscribe).blockCount ≤ 1) ∧
      ((fillBlockShape (last - first) participants hintChunk
          oversubscribe).blockCount ≤ 1 ∨
        Fits first (fillBlockShape (last - first) participants hintChunk
          oversubscribe)) ∧
      ((nestedShape (last - first) participants hintChunk).blockCount ≤ 1 ∨
        Fits first (nestedShape (last - first) participants hintChunk)) := by
  have hcounts : (fillBlockShape (last - first) participants hintChunk
      oversubscribe).Counts (last - first) :=
    fillBlockShape_counts hlast hrange hparticipants hhint
  have hblocks := dispatchTiles_partitions_iff hlast hrange hcounts
  have hnested := nestedTiles_partitions_iff hlast hrange hparticipants hhint
  constructor
  · intro hright
    refine ⟨?_, hblocks.1 hright.blocks, hnested.1 hright.nested⟩
    by_cases hzero : hintChunk = 0
    · right
      subst hintChunk
      obtain ⟨fuel, hinline⟩ := hright.inline false
      rw [runInlineChunked_zero, Option.some_inj] at hinline
      exact blockCount_le_one_of_dispatchTiles_eq hinline.symm
    · exact .inl hzero
  · rintro ⟨hgiven, hfits, hfitsNested⟩
    refine ⟨hblocks.2 hfits, fun cancelChecks => ?_, hnested.2 hfitsNested⟩
    by_cases hzero : hintChunk = 0
    · have hone := hgiven.resolve_left (not_not.2 hzero)
      refine ⟨0, ?_⟩
      rw [dispatchTiles, if_pos hone, hzero, runInlineChunked_zero]
    · apply runInlineChunked_eq hlast hrange hcounts _ hfits
      simp [fillBlockShape, hzero]

/-- An ordinary range on four participants, with a chunk that leaves a short
last block. -/
theorem blocksRight_hundred : BlocksRight 0 100 4 7 false :=
  (blocksRight_iff (by decide) (by decide) (by decide) (by decide)).2
    (by decide)

/-- Near the top of the range the last tile is inverted. -/
theorem blocksRight_not_top :
    ¬ ∀ first last participants hintChunk oversubscribe, last < 2 ^ 64 →
      first < last → 0 < participants ∧ participants < 2 ^ 32 →
      hintChunk < 2 ^ 64 →
      BlocksRight first last participants hintChunk oversubscribe := by
  intro hclaim
  have hright := hclaim (2 ^ 64 - 16) (2 ^ 64 - 1) 2 4 false (by decide)
    (by decide) (by decide) (by decide)
  have hless := hright.blocks.nonempty (2 ^ 64 - 4, 0) (by decide)
  simp at hless

end Right

end Citor.BlockArithmetic
