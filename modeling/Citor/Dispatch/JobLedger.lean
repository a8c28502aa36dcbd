import Citor.Dispatch.ShareEvents
import Citor.Engine.BlockCoverage

/-!
# The blocks of one dispatch

A dispatch of a call is, for its blocks, a dispatch of the partition runners:
each rank is run by somebody, a worker or the producer, from its entry to its
return.  The ledger carries the runners' books along: what was run and what is
still owed are the blocks of the call.
-/

namespace Citor.JobCaches

open BlockRunners (Balance RankPc RunState BlockRun)
open BlockCoverage Census

/-- The call as the partition runners see it. -/
def Call.blocks (program : Program) (call : Call) : BlockRunners.Dispatch where
  desc :=
    { first := call.first
      last := call.last
      chunk := (call.shape program).chunk
      blockCount := (call.shape program).blockCount
      participants := call.participants program
      participants_pos := program.participants_pos call.pool }
  share :=
    match (call.entry program).kind with
    | .typed balance => .balanced balance fun _ => .typedWorkerEntry
    | .contiguous => .contiguous
  cancellationActive := (call.entry program).cancellationActive
  bodyNoexcept := (call.entry program).bodyNoexcept
  throws := fun _ => false
  noexcept_throws := fun _ _ => rfl

section Blocks

variable {program : Program} {call : Call}

theorem blocks_nextBlockId (rank : ℕ) (prevIdx : Option ℕ) (counter : ℕ) :
    (call.blocks program).nextBlockId rank prevIdx counter =
      (call.entry program).kind.nextBlockId (call.shape program).blockCount
        (call.participants program) rank prevIdx counter := by
  unfold BlockRunners.Dispatch.nextBlockId EntryKind.nextBlockId Call.blocks
  cases (call.entry program).kind <;> rfl

/-- Only the dynamic balance looks at the counter. -/
theorem nextBlockId_static {kind : EntryKind}
    (hkind : kind ≠ .typed .dynamicChunked)
    (blockCount participants rank : ℕ) (prevIdx : Option ℕ)
    (left right : ℕ) :
    (kind.nextBlockId blockCount participants rank prevIdx left).1 =
      (kind.nextBlockId blockCount participants rank prevIdx right).1 := by
  cases kind with
  | contiguous => rfl
  | typed balance =>
      cases balance with
      | dynamicChunked => exact absurd rfl hkind
      | staticUniform =>
          simp only [EntryKind.nextBlockId, BlockRunners.nextTypedBlock]
          split <;> rfl

end Blocks

/-- The books of a dispatch: `counter` is the descriptor's block counter,
`blocks` what was run, `ranks` where the shares are that have begun, and
`early` says that some share was left early. -/
def Ledger (program : Program) (call : Call) (counter : ℕ)
    (blocks : List ℕ) (early : Prop) (ranks : ℕ → Option RankPc) : Prop :=
  ∃ (runs : List BlockRun) (books : RunState),
    Accounts (call.blocks program) runs books ∧
    runs.map BlockRun.blockId = blocks ∧
    (¬ early → books.Undisturbed) ∧
    ((call.entry program).kind = .typed .dynamicChunked →
      books.nextBlock = counter) ∧
    ∀ rank < call.participants program,
      books.ranks rank = (ranks rank).getD .entered

section Ledgers

variable {program : Program} {call : Call} {counter : ℕ} {blocks : List ℕ}
variable {early : Prop} {ranks : ℕ → Option RankPc}

/-- The books of a dispatch none of whose shares has begun. -/
theorem Ledger.start
    (hcounter : (call.entry program).kind = .typed .dynamicChunked →
      call.participants program < (call.shape program).blockCount →
      counter = call.participants program) :
    Ledger program call counter [] False fun _ => none := by
  refine ⟨[], (call.blocks program).start counter, Accounts.start _ _, rfl,
    fun _ => ⟨rfl, rfl⟩, fun hkind => ?_, fun _ _ => rfl⟩
  change (call.blocks program).desc.startCounter counter = counter
  unfold BlockRunners.JobDescriptor.startCounter
  split
  next hmore => exact (hcounter hkind hmore).symm
  · rfl

theorem getD_update (ranks : ℕ → Option RankPc) (rank other : ℕ)
    (place : RankPc) :
    (Function.update ranks rank (some place) other).getD .entered =
      Function.update (fun r => (ranks r).getD .entered) rank place other := by
  by_cases hother : other = rank
  · subst hother
    simp
  · simp [hother]

/-- A share begins. -/
theorem Ledger.enter (hledger : Ledger program call counter blocks early ranks)
    {rank : ℕ} (hnone : ranks rank = none) :
    Ledger program call counter blocks early
      (Function.update ranks rank (some .entered)) := by
  obtain ⟨runs, books, haccounts, hblocks, hclean, hcounter, hranks⟩ := hledger
  refine ⟨runs, books, haccounts, hblocks, hclean, hcounter, ?_⟩
  intro other hother
  rw [getD_update, hranks other hother]
  by_cases hsame : other = rank
  · subst hsame
    simp [hnone]
  · simp [hsame]

/-- A rank asks for its next block. -/
theorem Ledger.claim (hledger : Ledger program call counter blocks early ranks)
    {rank : ℕ} (hrank : rank < call.participants program) {place : RankPc}
    (hplace : ranks rank = some place) {prevIdx : Option ℕ}
    (hprev : place = prevIdx.elim .entered .ran) :
    let outcome := (call.entry program).kind.nextBlockId
      (call.shape program).blockCount (call.participants program) rank prevIdx
      counter
    Ledger program call outcome.2 blocks early
      (Function.update ranks rank
        (some (outcome.1.elim .returned .claimed))) := by
  intro outcome
  obtain ⟨runs, books, haccounts, hblocks, hclean, hcounter, hranks⟩ := hledger
  have hbooks : books.ranks rank = place := by
    rw [hranks rank hrank, hplace]
    rfl
  have howed : held (call.blocks program) books rank =
      owedBefore (call.blocks program) rank prevIdx := by
    rw [held, hbooks, hprev]
    cases prevIdx <;> rfl
  have hnext := haccounts.claim hrank prevIdx howed
  have hsame : ((call.blocks program).nextBlockId rank prevIdx
      books.nextBlock).1 = outcome.1 := by
    rw [blocks_nextBlockId]
    by_cases hkind : (call.entry program).kind = .typed .dynamicChunked
    · rw [hcounter hkind]
    · exact nextBlockId_static hkind _ _ _ _ _ _
  refine ⟨runs, _, hnext, hblocks, hclean, ?_, ?_⟩
  · intro hkind
    change ((call.blocks program).nextBlockId rank prevIdx
      books.nextBlock).2 = _
    rw [blocks_nextBlockId, hcounter hkind]
  · intro other hother
    rw [getD_update]
    change Function.update books.ranks rank
      (((call.blocks program).nextBlockId rank prevIdx
        books.nextBlock).1.elim .returned .claimed) other = _
    rw [hsame]
    by_cases hother' : other = rank
    · subst hother'
      simp
    · simp [hother', hranks other hother]

/-- A block is run: it is one of the call's and was not run before. -/
theorem Ledger.run (hledger : Ledger program call counter blocks early ranks)
    {rank blockId : ℕ} (hrank : rank < call.participants program)
    (hplace : ranks rank = some (.claimed blockId)) :
    blockId ∉ blocks ∧ blockId < (call.shape program).blockCount ∧
    Ledger program call counter (blocks ++ [blockId]) early
      (Function.update ranks rank (some (.ran blockId))) := by
  obtain ⟨runs, books, haccounts, hblocks, hclean, hcounter, hranks⟩ := hledger
  have hbooks : books.ranks rank = .claimed blockId := by
    rw [hranks rank hrank, hplace]
    rfl
  have hheld : blockId ∈ held (call.blocks program) books rank := by
    simp [held, hbooks, owed]
  have hcensus : single blockId blockId ≤
      census (call.blocks program).desc.participants (single blockId)
        (held (call.blocks program) books) :=
    le_census hrank (single blockId) hheld
  have honce := haccounts.once blockId
  have hone : single blockId blockId = 1 := by
    simp [single]
  rw [accounted, hblocks] at honce
  have hlt : blockId < (call.shape program).blockCount := by
    refine List.mem_range.1 (List.count_pos_iff.1 ?_)
    exact Nat.lt_of_lt_of_le (by omega) honce
  have hcount := List.nodup_iff_count_le_one.1
    (List.nodup_range (n := (call.blocks program).desc.blockCount)) blockId
  refine ⟨List.count_eq_zero.1 (by omega), hlt, _, _,
    haccounts.run hrank hbooks, ?_, hclean, hcounter, ?_⟩
  · simp [hblocks, BlockRunners.JobDescriptor.blockRun]
  · intro other hother
    rw [getD_update]
    change Function.update books.ranks rank _ other = _
    by_cases hother' : other = rank
    · subst hother'
      simp
    · simp [hother', hranks other hother]

/-- A share is left early. -/
theorem Ledger.leave (hledger : Ledger program call counter blocks early ranks)
    {rank : ℕ} (hrank : rank < call.participants program)
    {early' : Prop} (hearly : early') :
    Ledger program call counter blocks early'
      (Function.update ranks rank (some .returned)) := by
  obtain ⟨runs, books, haccounts, hblocks, -, hcounter, hranks⟩ := hledger
  have hstop : Accounts (call.blocks program) runs
      { books with stopRequested := true } := by
    have hstep : (call.blocks program).machine.step books .stop =
        some ({ books with stopRequested := true }, none) := rfl
    simpa using haccounts.next hstep
  refine ⟨runs, _, hstop.leave hrank (fun hclean => by
      simpa using hclean.2), hblocks, fun hnot => absurd hearly hnot,
    hcounter, ?_⟩
  intro other hother
  rw [getD_update]
  change Function.update books.ranks rank _ other = _
  by_cases hother' : other = rank
  · subst hother'
    simp
  · simp [hother', hranks other hother]

/-- Once every share has returned and none was left early, all blocks were
run. -/
theorem Ledger.finish (hledger : Ledger program call counter blocks early ranks)
    (hranks : ∀ rank < call.participants program,
      ranks rank = some .returned) (hclean : ¬ early) :
    blocks.Perm (List.range (call.shape program).blockCount) := by
  obtain ⟨runs, books, haccounts, rfl, hundisturbed, -, hplaces⟩ := hledger
  refine blockIds_perm haccounts (fun rank hrank => ?_) (hundisturbed hclean)
  rw [hplaces rank hrank, hranks rank hrank]
  rfl

end Ledgers

end Citor.JobCaches
