import Citor.Engine.BlockPartition

/-!
# Partials that share memory words

`partials[blockId] = map(lo, hi)` is one store where the container gives every
element an address of its own.  `std::vector<bool>` packs its elements: its
assignment loads the word that holds the element, replaces the bit and stores
the whole word back.  Ranks write at the same time, so the accesses of
different ranks interleave.
-/

namespace Citor.Reduce

open Citor.BlockPartition

/-- The two memory accesses of an assignment to a packed element. -/
inductive Access
  | load (blockId : ℕ)
  | store (blockId : ℕ)
  deriving DecidableEq, Repr

def Access.blockId : Access → ℕ
  | .load blockId => blockId
  | .store blockId => blockId

@[simp]
theorem Access.blockId_load (blockId : ℕ) :
    (Access.load blockId).blockId = blockId := rfl

@[simp]
theorem Access.blockId_store (blockId : ℕ) :
    (Access.store blockId).blockId = blockId := rfl

/-- The assignments of a rank that runs these blocks. -/
def assignments (blocks : List ℕ) : List Access :=
  blocks.flatMap fun blockId => [.load blockId, .store blockId]

/-- The partials, and for every assignment the partials as it loaded them. -/
structure Partials (A : Type*) where
  slots : ℕ → A
  loaded : ℕ → ℕ → A

section Memory

variable {A : Type*} (perWord : ℕ) (value : ℕ → A)

/-- One access where `perWord` partials share a word. -/
def Partials.access (partials : Partials A) : Access → Partials A
  | .load blockId => { partials with
      loaded := Function.update partials.loaded blockId partials.slots }
  | .store blockId => { partials with
      slots := fun slot =>
        if slot = blockId then value blockId
        else if slot / perWord = blockId / perWord then
          partials.loaded blockId slot
        else partials.slots slot }

def Partials.run (partials : Partials A) (accesses : List Access) :
    Partials A :=
  accesses.foldl (Partials.access perWord value) partials

/-- Slots that hold `scratch`, nothing loaded yet. -/
def Partials.initial (scratch : ℕ → A) : Partials A :=
  ⟨scratch, fun _ => scratch⟩

variable {perWord value} {partials : Partials A}

@[simp]
theorem Partials.run_nil : partials.run perWord value [] = partials := rfl

@[simp]
theorem Partials.run_cons (access : Access) (rest : List Access) :
    partials.run perWord value (access :: rest) =
      (partials.access perWord value access).run perWord value rest := rfl

theorem Partials.run_append (earlier later : List Access) :
    partials.run perWord value (earlier ++ later) =
      (partials.run perWord value earlier).run perWord value later :=
  List.foldl_append

@[simp]
theorem assignments_cons (blockId : ℕ) (rest : List ℕ) :
    assignments (blockId :: rest) =
      .load blockId :: .store blockId :: assignments rest := rfl

theorem assignments_append (left right : List ℕ) :
    assignments (left ++ right) = assignments left ++ assignments right :=
  List.flatMap_append

/-- Where every partial has a word of its own, a slot holds its block's value
once that has been stored. -/
theorem Partials.run_slots_of_store (hown : perWord = 1)
    (accesses : List Access) (slot : ℕ) :
    (partials.run perWord value accesses).slots slot =
      if .store slot ∈ accesses then value slot else partials.slots slot := by
  subst hown
  induction accesses generalizing partials with
  | nil => simp
  | cons access rest ih =>
      rw [run_cons, ih]
      by_cases hrest : Access.store slot ∈ rest
      · simp [hrest]
      · cases access with
        | load blockId => simp [hrest, Partials.access]
        | store blockId =>
            by_cases hsame : slot = blockId
            · simp [hsame, Partials.access]
            · simp [hsame, hrest, Partials.access]

/-- Assignments one after the other lose nothing, however the slots are
packed. -/
theorem Partials.run_assignments_slots (blocks : List ℕ) (slot : ℕ) :
    (partials.run perWord value (assignments blocks)).slots slot =
      if slot ∈ blocks then value slot else partials.slots slot := by
  induction blocks generalizing partials with
  | nil => simp [assignments]
  | cons blockId rest ih =>
      rw [assignments_cons, run_cons, run_cons, ih]
      by_cases hrest : slot ∈ rest
      · simp [hrest]
      · by_cases hsame : slot = blockId
        · simp [hsame, Partials.access]
        · simp [hsame, hrest, Partials.access]

/-- What an assignment has loaded stays while others assign. -/
theorem Partials.run_assignments_loaded {blocks : List ℕ} {blockId : ℕ}
    (hother : blockId ∉ blocks) :
    (partials.run perWord value (assignments blocks)).loaded blockId =
      partials.loaded blockId := by
  induction blocks generalizing partials with
  | nil => rfl
  | cons head rest ih =>
      obtain ⟨hhead, hrest⟩ := not_or.1 (mt List.mem_cons.2 hother)
      rw [assignments_cons, run_cons, run_cons, ih hrest]
      simp [Partials.access, hhead]

end Memory

/-! ## The accesses of a dispatch -/

/-- The block is in the rank's contiguous span. -/
def runsBlock (nChunks participants rank blockId : ℕ) : Bool :=
  decide (blockId ∈ contiguousBlocks nChunks participants rank)

@[simp]
theorem runsBlock_iff {nChunks participants rank blockId : ℕ} :
    runsBlock nChunks participants rank blockId = true ↔
      blockId ∈ contiguousBlocks nChunks participants rank :=
  decide_eq_true_iff

/-- Any interleaving of what the ranks do: every rank assigns its contiguous
span in order. -/
structure TypedAccesses (nChunks participants : ℕ) (accesses : List Access) :
    Prop where
  inside : ∀ access ∈ accesses, access.blockId < nChunks
  ranks : ∀ rank < participants,
    (accesses.filter fun access =>
      runsBlock nChunks participants rank access.blockId) =
      assignments (contiguousBlocks nChunks participants rank)

theorem store_mem_assignments {blocks : List ℕ} {blockId : ℕ}
    (hmem : blockId ∈ blocks) : .store blockId ∈ assignments blocks :=
  List.mem_flatMap.2 ⟨blockId, hmem, by simp⟩

/-- Every block is stored. -/
theorem TypedAccesses.store_mem {nChunks participants blockId : ℕ}
    {accesses : List Access}
    (haccesses : TypedAccesses nChunks participants accesses)
    (hpos : 0 < participants) (hblock : blockId < nChunks) :
    .store blockId ∈ accesses := by
  obtain ⟨rank, hrank, hmem⟩ := (mem_contiguousBlocks_iff hpos _ _).2 hblock
  have hstore := store_mem_assignments hmem
  rw [← haccesses.ranks rank hrank] at hstore
  exact List.mem_of_mem_filter hstore

/-! ## A lost update -/

/-- The first assignment of the second rank, to block `second`, loads its word
before the first rank assigns anything and stores it when that is done; the
other assignments follow in order. -/
def lostUpdate (nChunks second : ℕ) : List Access :=
  .load second :: (assignments (List.range second) ++ .store second ::
    assignments (List.range' (second + 1) (nChunks - (second + 1))))

/-- The partials of the first rank that share the word are lost. -/
theorem Partials.run_lostUpdate {A : Type*} {perWord : ℕ} {value : ℕ → A}
    (scratch : ℕ → A) {nChunks second slot : ℕ} (hslot : slot < second)
    (hword : slot / perWord = second / perWord) :
    ((Partials.initial scratch).run perWord value
      (lostUpdate nChunks second)).slots slot = scratch slot := by
  have hearlier : slot ∉
      List.range' (second + 1) (nChunks - (second + 1)) := by
    rw [List.mem_range'_1]
    omega
  have hother : second ∉ List.range second := by simp
  have hsame : slot ≠ second := hslot.ne
  rw [lostUpdate, run_cons, run_append, run_cons, run_assignments_slots,
    if_neg hearlier]
  simp [Partials.access, hsame, hword, run_assignments_loaded hother,
    Partials.initial]

theorem filter_assignments (kept : ℕ → Bool) (blocks : List ℕ) :
    ((assignments blocks).filter fun access => kept access.blockId) =
      assignments (blocks.filter kept) := by
  induction blocks with
  | nil => rfl
  | cons blockId rest ih =>
      cases hkept : kept blockId with
      | false => simp [hkept, ih]
      | true => simp [hkept, ih]

/-- A rank's span, filtered from all blocks. -/
theorem filter_range_runsBlock (nChunks : ℕ) {participants rank : ℕ}
    (hrank : rank < participants) :
    (List.range nChunks).filter (runsBlock nChunks participants rank) =
      contiguousBlocks nChunks participants rank := by
  have hpos : 0 < participants := Nat.zero_lt_of_lt hrank
  apply List.Pairwise.eq_of_mem_iff (r := (· < ·))
  · exact List.pairwise_lt_range.filter _
  · exact List.pairwise_lt_range'
  · intro blockId
    have hinside := (mem_contiguousBlocks_iff hpos nChunks blockId).1
    simp only [List.mem_filter, List.mem_range, runsBlock_iff,
      and_iff_right_iff_imp]
    intro hmem
    exact hinside ⟨rank, hrank, hmem⟩

theorem range_split {second count : ℕ} (hsecond : second < count) :
    List.range count = List.range second ++
      second :: List.range' (second + 1) (count - (second + 1)) := by
  obtain ⟨rest, rfl⟩ := Nat.exists_eq_add_of_lt hsecond
  have hrest : second + rest + 1 - (second + 1) = rest := by omega
  rw [hrest, Nat.add_assoc, List.range_eq_range', ← List.range'_append_1,
    List.range'_succ, ← List.range_eq_range', Nat.zero_add]

/-- The rank whose span has begun in front of the second rank's is the
first. -/
theorem rank_eq_zero {nChunks participants rank : ℕ}
    (hfront : spanBegin nChunks participants rank <
      spanBegin nChunks participants 1) : rank = 0 := by
  by_contra hlater
  have hmono := spanBegin_mono nChunks participants
    (Nat.one_le_iff_ne_zero.2 hlater)
  omega

/-- With a rank for every block the second rank runs block 1. -/
theorem spanBegin_self {nChunks : ℕ} (hpos : 0 < nChunks) :
    spanBegin nChunks nChunks 1 = 1 := by
  simp [spanBegin, Nat.div_self hpos]

/-- The lost update is an interleaving of the ranks. -/
theorem typedAccesses_lostUpdate {nChunks participants : ℕ}
    (hspan : spanBegin nChunks participants 1 < nChunks) :
    TypedAccesses nChunks participants
      (lostUpdate nChunks (spanBegin nChunks participants 1)) := by
  set second := spanBegin nChunks participants 1 with hsecond
  constructor
  · intro access haccess
    simp only [lostUpdate, assignments, List.mem_cons, List.mem_append,
      List.mem_flatMap, List.mem_range, List.mem_range'_1, List.not_mem_nil,
      or_false] at haccess
    rcases haccess with rfl | ⟨blockId, hblock, rfl | rfl⟩ | rfl |
      ⟨blockId, hblock, rfl | rfl⟩
    all_goals
      simp only [Access.blockId_load, Access.blockId_store]
      omega
  · intro rank hrank
    have hspanOf := filter_range_runsBlock nChunks hrank
    rw [range_split hspan, List.filter_append] at hspanOf
    simp only [lostUpdate, List.filter_cons, List.filter_append,
      filter_assignments, Access.blockId_load, Access.blockId_store]
    by_cases hmem : runsBlock nChunks participants rank second = true
    · -- the rank that runs this block has nothing in front of it
      have hnone : (List.range second).filter
          (runsBlock nChunks participants rank) = [] := by
        apply List.filter_eq_nil_iff.2
        intro blockId hblock hother
        have hbegin := (mem_contiguousBlocks hrank).1 (runsBlock_iff.1 hother)
        have hzero := rank_eq_zero
          (hbegin.1.trans_lt (List.mem_range.1 hblock))
        subst hzero
        have hend := (mem_contiguousBlocks hrank).1 (runsBlock_iff.1 hmem)
        exact absurd hend.2 (lt_irrefl second)
      rw [hnone, List.filter_cons_of_pos hmem] at hspanOf
      rw [hnone, if_pos hmem, if_pos hmem, ← hspanOf]
      rfl
    · rw [List.filter_cons_of_neg hmem] at hspanOf
      rw [if_neg hmem, if_neg hmem, ← assignments_append, hspanOf]

end Citor.Reduce
