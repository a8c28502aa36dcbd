import Citor.Reduce.PathIndependence

/-!
# What a cancelled reduction carries

A stop leaves some chunks without a partial.  Every implementation compacts
the partials of the others in chunk order, combines them with the pairwise tree
over as many leaves, and throws exactly if a chunk is missing.
-/

namespace Citor.Reduce

open Citor.BlockPartition
open Citor.PairwiseTree

section Outcome

variable {T A : Type*} (mode : Mode T A) (job : Job T)

/-- The chunks that completed, in ascending order. -/
def Job.completed (order : List ℕ) : List ℕ :=
  (List.range job.nChunks).filter (· ∈ order)

/-- The caller's combine of `init` and the pairwise tree over the partials of
some chunks. -/
def Job.partialValue (chunks : List ℕ) : T :=
  job.combine job.init (mode.root
    (pairwiseTree mode.node chunks.length fun index =>
      mode.leaf (job.mapped (chunks.getD index 0))))

/-- What a call with these completed chunks delivers. -/
def Job.outcome (chunks : List ℕ) : Result T :=
  if chunks = [] then .error job.init
  else if chunks.length < job.nChunks then
    .error (job.partialValue mode chunks)
  else .ok (job.partialValue mode chunks)

variable {job} {order : List ℕ}

@[simp]
theorem Job.mem_completed {blockId : ℕ} :
    blockId ∈ job.completed order ↔ blockId < job.nChunks ∧ blockId ∈ order := by
  simp [Job.completed]

theorem Job.completed_ascending :
    (job.completed order).Pairwise (· < ·) :=
  List.Pairwise.filter _ List.pairwise_lt_range

/-- A chunk is missing exactly if the list is short. -/
theorem Job.completed_length_lt_iff :
    (job.completed order).length < job.nChunks ↔
      ∃ blockId < job.nChunks, blockId ∉ order := by
  have hle := List.length_filter_le (· ∈ order) (List.range job.nChunks)
  rw [List.length_range] at hle
  constructor
  · intro hshort
    by_contra hall
    push Not at hall
    have hfull : job.completed order = List.range job.nChunks :=
      List.filter_eq_self.2 fun blockId hblock => by
        simpa using hall blockId (List.mem_range.1 hblock)
    simp [hfull] at hshort
  · rintro ⟨blockId, hblock, hmissing⟩
    refine Nat.lt_of_le_of_ne hle fun hfull => ?_
    have hkept := List.length_filter_eq_length_iff.1
      (hfull.trans List.length_range.symm) blockId (List.mem_range.2 hblock)
    exact hmissing (by simpa using hkept)

/-- A call throws exactly if some chunk did not complete. -/
theorem Job.outcome_throws_iff (hrange : job.first < job.last) :
    (∃ carried, job.outcome mode (job.completed order) = .error carried) ↔
      ∃ blockId < job.nChunks, blockId ∉ order := by
  rw [← job.completed_length_lt_iff]
  have hpos := job.nChunks_pos hrange
  unfold Job.outcome
  split
  next hnone => simp [hnone, hpos]
  next =>
    split
    next hshort => simp [hshort]
    next hfull => simp [hfull]

end Outcome

section Paths

variable {T A : Type*} [Inhabited A] (mode : Mode T A) (job : Job T)
variable {order : List ℕ}

/-- The vector form of the combine loop over any partials. -/
theorem pairwiseTreeCombine_map (combine : A → A → A) (leaf : ℕ → A)
    {chunks : List ℕ} (hsome : chunks ≠ []) :
    pairwiseTreeCombine (chunks.map leaf) combine =
      pairwiseTree combine chunks.length fun index =>
        leaf (chunks.getD index 0) := by
  have hindices : chunks.map leaf = (List.range chunks.length).map fun index =>
      leaf (chunks.getD index 0) := by
    refine List.ext_getElem (by simp) fun index hindex _ => ?_
    simp at hindex
    simp [hindex]
  rw [hindices, pairwiseTreeCombine_map_range combine
    (List.length_pos_of_ne_nil hsome)]

omit [Inhabited A] in
/-- Compacting the completed slots, whatever the others hold. -/
theorem filterMap_done (partials : ℕ → Slot A) (done : ℕ → Bool)
    (value : ℕ → A) (chunks : List ℕ)
    (hdone : ∀ blockId ∈ chunks, ((partials blockId).done = true ↔
      done blockId = true))
    (hvalue : ∀ blockId ∈ chunks, done blockId = true →
      (partials blockId).value = value blockId) :
    (chunks.filterMap fun i =>
        if (partials i).done then some (partials i).value else none) =
      (chunks.filter done).map value := by
  induction chunks with
  | nil => rfl
  | cons blockId rest ih =>
      have htail := ih (fun other hother => hdone other (.tail _ hother))
        fun other hother => hvalue other (.tail _ hother)
      cases hhere : done blockId with
      | true =>
          have hon := (hdone blockId (.head _)).2 hhere
          simp [hhere, hon, hvalue blockId (.head _) hhere, htail]
      | false =>
          have hoff : (partials blockId).done = false := by
            simpa [hhere] using hdone blockId (.head _)
          simp [hhere, hoff, htail]

/-- The shared end of the engines with completion flags. -/
theorem combineCompleted_eq_outcome (partials : ℕ → Slot A)
    (hdone : ∀ blockId < job.nChunks, ((partials blockId).done = true ↔
      blockId ∈ order))
    (hvalue : ∀ blockId < job.nChunks, blockId ∈ order →
      (partials blockId).value = mode.leaf (job.mapped blockId)) :
    combineCompleted mode job partials =
      job.outcome mode (job.completed order) := by
  have hflat : ((List.range job.nChunks).filterMap fun i =>
      if (partials i).done then some (partials i).value else none) =
      (job.completed order).map fun blockId =>
        mode.leaf (job.mapped blockId) := by
    refine filterMap_done _ _ _ _ (fun blockId hblock => ?_)
      fun blockId hblock => ?_
    · simpa using hdone blockId (List.mem_range.1 hblock)
    · simpa using hvalue blockId (List.mem_range.1 hblock)
  have hmissed : ((List.range job.nChunks).any fun i => !(partials i).done) =
      decide ((job.completed order).length < job.nChunks) := by
    rw [Bool.eq_iff_iff, decide_eq_true_iff, job.completed_length_lt_iff]
    simp only [List.any_eq_true, List.mem_range, Bool.not_eq_true']
    refine exists_congr fun blockId => and_congr_right fun hblock => ?_
    rw [← hdone blockId hblock, Bool.not_eq_true]
  simp only [combineCompleted, hflat, hmissed, Job.outcome]
  by_cases hnone : job.completed order = []
  · simp [hnone]
  · simp [hnone, Job.partialValue,
      pairwiseTreeCombine_map mode.node
        (fun blockId => mode.leaf (job.mapped blockId)) hnone]

/-- The slots after the blocks of an order have completed. -/
theorem combineCompleted_of_order (scratch : ℕ → A) :
    combineCompleted mode job (order.foldl (fun partials blockId =>
      Function.update partials blockId ⟨mode.leaf (job.mapped blockId), true⟩)
      fun i => ⟨scratch i, false⟩) =
    job.outcome mode (job.completed order) := by
  have hslots := foldl_update_apply
    (fun blockId => Slot.mk (mode.leaf (job.mapped blockId)) true)
    (fun i => ⟨scratch i, false⟩) order
  refine combineCompleted_eq_outcome mode job _ (fun blockId _ => ?_)
    fun blockId _ hmem => ?_
  · rw [hslots]
    split <;> simp_all
  · rw [hslots, if_pos hmem]

theorem runReduceParallelCancellable_eq_outcome (scratch : ℕ → A) :
    runReduceParallelCancellable mode job scratch order =
      job.outcome mode (job.completed order) :=
  combineCompleted_of_order mode job scratch

theorem runReduceParallelRuntime_eq_outcome (hrange : job.first < job.last)
    (scratch : ℕ → A) :
    runReduceParallelRuntime mode job scratch order =
      job.outcome mode (job.completed order) := by
  unfold runReduceParallelRuntime
  simp only [blockLo_sub_div (job.chunk_pos hrange)]
  exact combineCompleted_of_order mode job scratch

/-- The chunks that the inline loop maps: up to the first poll that says
stop. -/
def inlineOrder (polls : Polls) : List ℕ :=
  if polls.atEntry then []
  else (List.range job.nChunks).takeWhile fun blockId =>
    !(polls.canStop && polls.atBlock blockId)

omit [Inhabited A] in
theorem inlinePartials_eq (polls : Polls) (remaining b : ℕ)
    (partials : List A) :
    inlinePartials mode job polls remaining b partials =
      partials ++ ((List.range' b remaining).takeWhile fun blockId =>
        !(polls.canStop && polls.atBlock blockId)).map fun blockId =>
          mode.leaf (job.mapped blockId) := by
  induction remaining generalizing b partials with
  | zero => simp [inlinePartials]
  | succ remaining ih =>
      rw [inlinePartials, List.range'_succ, List.takeWhile_cons]
      cases hpoll : polls.canStop && polls.atBlock b with
      | true => simp
      | false => simp [ih]

/-- What a list keeps while a test holds is what it has in common with that. -/
theorem filter_mem_takeWhile (keeps : ℕ → Bool) {chunks : List ℕ}
    (hnodup : chunks.Nodup) :
    chunks.filter (· ∈ chunks.takeWhile keeps) = chunks.takeWhile keeps := by
  induction chunks with
  | nil => rfl
  | cons blockId rest ih =>
      obtain ⟨hnew, hrest⟩ := List.nodup_cons.1 hnodup
      cases hkeep : keeps blockId with
      | false => simp [hkeep]
      | true =>
          have hothers : rest.filter
              (fun other => other ∈ blockId :: rest.takeWhile keeps) =
              rest.filter (· ∈ rest.takeWhile keeps) := by
            refine List.filter_congr fun other hother => ?_
            have hne : other ≠ blockId := fun hsame => hnew (hsame ▸ hother)
            simp [hne]
          rw [List.takeWhile_cons_of_pos hkeep,
            List.filter_cons_of_pos (by simp), hothers, ih hrest]

/-- The inline loop completes a segment at the front, in order. -/
theorem completed_inlineOrder (polls : Polls) :
    job.completed (inlineOrder job polls) = inlineOrder job polls := by
  unfold inlineOrder Job.completed
  split
  · simp
  · exact filter_mem_takeWhile _ List.nodup_range

theorem runReduceInlineImpl_eq_outcome (polls : Polls) :
    runReduceInlineImpl mode job polls =
      job.outcome mode (job.completed (inlineOrder job polls)) := by
  rw [completed_inlineOrder]
  unfold runReduceInlineImpl inlineOrder Job.outcome
  cases polls.atEntry with
  | true => simp
  | false =>
      simp only [Bool.false_eq_true, if_false, inlinePartials_eq,
        List.nil_append, ← List.range_eq_range', List.isEmpty_iff,
        List.map_eq_nil_iff, List.length_map]
      split
      next => rfl
      next hsome =>
        rw [pairwiseTreeCombine_map mode.node
          (fun blockId => mode.leaf (job.mapped blockId)) hsome]
        rfl

end Paths

/-! ## The three paths -/

/-- Every path delivers the same function of its completed chunks, which throws
exactly if one is missing. -/
structure CancelledPathsAgree {T A : Type*} [Inhabited A] (mode : Mode T A)
    (job : Job T) : Prop where
  inlined : ∀ polls, runReduceInlineImpl mode job polls =
    job.outcome mode (job.completed (inlineOrder job polls))
  typed : ∀ polls participants, 0 < participants → ∀ scratch order,
    TypedOrder job polls participants order →
      runReduceParallelCancellable mode job scratch order =
        job.outcome mode (job.completed order)
  runtime : ∀ polls participants, 0 < participants → ∀ scratch order,
    RuntimeOrder job polls participants order →
      runReduceParallelRuntime mode job scratch order =
        job.outcome mode (job.completed order)
  throws : ∀ order,
    (∃ carried, job.outcome mode (job.completed order) = .error carried) ↔
      ∃ blockId < job.nChunks, blockId ∉ order
  ascending : ∀ order, (job.completed order).Pairwise (· < ·) ∧
    ∀ blockId, blockId ∈ job.completed order ↔
      blockId < job.nChunks ∧ blockId ∈ order

theorem cancelledPathsAgree {T A : Type*} [Inhabited A] (mode : Mode T A)
    (job : Job T) (hrange : job.first < job.last) :
    CancelledPathsAgree mode job where
  inlined := runReduceInlineImpl_eq_outcome mode job
  typed _ _ _ scratch _ _ :=
    runReduceParallelCancellable_eq_outcome mode job scratch
  runtime _ _ _ scratch _ _ :=
    runReduceParallelRuntime_eq_outcome mode job hrange scratch
  throws _ := job.outcome_throws_iff mode hrange
  ascending _ := ⟨job.completed_ascending, fun _ => job.mem_completed⟩

/-- Both reductions: a call throws exactly if a chunk is missing; it carries
`init` if none completed, and else the caller's combine of `init` and the tree
over the completed chunks' partials in chunk order; and this is one function
of the completed chunks on all three paths. -/
theorem parallelReduce_cancelled {T Double : Type*} [Inhabited T]
    [Add Double] [Sub Double] [Neg Double] [Zero Double]
    (toDouble : T → Double) (ofDouble : Double → T) (job : Job T)
    (hrange : job.first < job.last) :
    CancelledPathsAgree (fixedBlock job.combine) job ∧
      CancelledPathsAgree (kahanCompensated toDouble ofDouble) job :=
  ⟨cancelledPathsAgree _ job hrange, cancelledPathsAgree _ job hrange⟩

/-- The first of two ranks stops in front of chunk 1 of three: chunks 0 and 2
complete, in either order. -/
theorem parallelReduce_cancelled_digits :
    TypedOrder digitsJob ⟨true, false, fun blockId => blockId == 1⟩ 2 [2, 0] ∧
      runReduceParallelCancellable (fixedBlock digitsJob.combine) digitsJob
          (fun _ => 0) [2, 0] =
        digitsJob.outcome (fixedBlock digitsJob.combine) [0, 2] ∧
      digitsJob.outcome (fixedBlock digitsJob.combine) [0, 2] =
        .error 1019 := by
  have horder : TypedOrder digitsJob
      ⟨true, false, fun blockId => blockId == 1⟩ 2 [2, 0] := by
    unfold TypedOrder CompletionOrder
    decide
  exact ⟨horder, (parallelReduce_cancelled Int.ofNat Int.toNat digitsJob
    (by decide)).1.typed _ 2 (by decide) _ _ horder, by decide⟩

/-! ## Initial segments -/

/-- The chunks are `[0, k)`. -/
def InitialSegment (chunks : List ℕ) : Prop :=
  ∃ k, chunks = List.range k

/-- Where a rank of the typed engine meets the stop, every later rank meets it
in front of its first block. -/
def StopsInOrder {T : Type*} (job : Job T) (polls : Polls)
    (participants : ℕ) : Prop :=
  ∀ earlier later, earlier < later → later < participants →
    (∃ blockId ∈ contiguousBlocks job.nChunks participants earlier,
      polls.atBlock blockId = true) →
    ∀ front, (contiguousBlocks job.nChunks participants later).head? =
      some front → polls.atBlock front = true

section Segments

variable {T : Type*} {job : Job T} {polls : Polls} {participants : ℕ}
variable {order : List ℕ}

/-- A selection of a range that is closed downwards. -/
theorem filter_range_eq_range (keeps : ℕ → Bool)
    (hdown : ∀ {lower upper}, lower < upper → keeps upper = true →
      keeps lower = true) (count : ℕ) :
    ∃ k, (List.range count).filter keeps = List.range k := by
  induction count with
  | zero => exact ⟨0, rfl⟩
  | succ count ih =>
      obtain ⟨k, hk⟩ := ih
      cases hlast : keeps count with
      | false => exact ⟨k, by simp [List.range_succ, hk, hlast]⟩
      | true =>
          have hall : (List.range count).filter keeps = List.range count :=
            List.filter_eq_self.2 fun lower hlower =>
              hdown (List.mem_range.1 hlower) hlast
          exact ⟨count + 1, by simp [List.range_succ, hall, hlast]⟩

theorem mem_takeWhile_range' (keeps : ℕ → Bool) (start count blockId : ℕ) :
    blockId ∈ (List.range' start count).takeWhile keeps ↔
      (start ≤ blockId ∧ blockId < start + count) ∧
        ∀ other, start ≤ other → other ≤ blockId → keeps other = true := by
  induction count generalizing start with
  | zero => simp
  | succ count ih =>
      rw [List.range'_succ]
      cases hstart : keeps start with
      | false =>
          simp only [List.takeWhile_cons, hstart, Bool.false_eq_true, if_false,
            List.not_mem_nil, false_iff]
          rintro ⟨⟨hle, -⟩, hall⟩
          simp [hall start le_rfl hle] at hstart
      | true =>
          simp only [List.takeWhile_cons, hstart, if_true, List.mem_cons, ih]
          constructor
          · rintro (rfl | ⟨⟨hle, hlt⟩, hall⟩)
            · refine ⟨⟨le_rfl, by omega⟩, fun other hfrom hto => ?_⟩
              obtain rfl : other = blockId := by omega
              exact hstart
            · refine ⟨⟨by omega, by omega⟩, fun other hfrom hto => ?_⟩
              rcases Nat.lt_or_eq_of_le hfrom with hlater | rfl
              · exact hall other hlater hto
              · exact hstart
          · rintro ⟨⟨hle, hlt⟩, hall⟩
            rcases Nat.lt_or_eq_of_le hle with hlater | rfl
            · exact .inr ⟨⟨hlater, by omega⟩, fun other hfrom hto =>
                hall other (by omega) hto⟩
            · exact .inl rfl

/-- A block completes in the typed engine if its rank meets no stop up to
it. -/
theorem mem_typedOrder_iff
    (horder : TypedOrder job polls participants order) (blockId : ℕ) :
    blockId ∈ order ↔ ∃ rank < participants,
      (spanBegin job.nChunks participants rank ≤ blockId ∧
        blockId < spanBegin job.nChunks participants (rank + 1)) ∧
      ∀ other, spanBegin job.nChunks participants rank ≤ other →
        other ≤ blockId → polls.atBlock other = false := by
  rw [horder.mem_iff, List.mem_flatMap]
  refine exists_congr fun rank => ?_
  rw [List.mem_range]
  refine and_congr_right fun hrank => ?_
  have hmono := spanBegin_mono job.nChunks participants (Nat.le_succ rank)
  simp only [rankBlocks, contiguousBlocks, contiguousRankBlockSpan_eq hrank,
    mem_takeWhile_range', Bool.not_eq_true']
  rw [Nat.add_sub_cancel' hmono]

theorem head_contiguousBlocks {rank front : ℕ} (hrank : rank < participants) :
    (contiguousBlocks job.nChunks participants rank).head? = some front ↔
      front = spanBegin job.nChunks participants rank ∧
        front < spanBegin job.nChunks participants (rank + 1) := by
  simp only [contiguousBlocks, contiguousRankBlockSpan_eq hrank]
  generalize spanBegin job.nChunks participants (rank + 1) = stop
  generalize spanBegin job.nChunks participants rank = start
  cases hcount : stop - start with
  | zero =>
      simp only [List.range'_zero, List.head?_nil, reduceCtorEq, false_iff]
      omega
  | succ count =>
      simp only [List.range'_succ, List.head?_cons, Option.some.injEq]
      omega

/-- A typed reduction carries an initial segment exactly if the stop reaches
the ranks in order. -/
theorem initialSegment_iff (hpos : 0 < participants)
    (horder : TypedOrder job polls participants order) :
    InitialSegment (job.completed order) ↔
      StopsInOrder job polls participants := by
  have hmem := mem_typedOrder_iff horder
  constructor
  · rintro ⟨k, hk⟩ earlier later hless hlater ⟨blockId, hblock, hstop⟩ front
      hfront
    by_contra hruns
    rw [Bool.not_eq_true] at hruns
    obtain ⟨hbegin, hend⟩ := (head_contiguousBlocks hlater).1 hfront
    have hspan := (mem_contiguousBlocks (hless.trans hlater)).1 hblock
    have hbehind := spanBegin_mono job.nChunks participants
      (show earlier + 1 ≤ later from hless)
    -- the later rank's first block completed, the stopped one did not
    have hdone : front ∈ order := (hmem front).2 ⟨later, hlater,
      ⟨hbegin.ge, hend⟩, fun other hfrom hto => by
        obtain rfl : other = front := by omega
        exact hruns⟩
    have hbound : front < job.nChunks :=
      (mem_contiguousBlocks_iff hpos _ _).1 ⟨later, hlater,
        (mem_contiguousBlocks hlater).2 ⟨hbegin.ge, hend⟩⟩
    have hfrontDone : front ∈ List.range k :=
      hk ▸ job.mem_completed.2 ⟨hbound, hdone⟩
    have hblockDone : blockId ∈ job.completed order := by
      rw [hk]
      exact List.mem_range.2 (by
        have := List.mem_range.1 hfrontDone
        omega)
    obtain ⟨rank, -, ⟨hfrom, -⟩, hall⟩ :=
      (hmem blockId).1 (job.mem_completed.1 hblockDone).2
    rw [hall blockId hfrom le_rfl] at hstop
    cases hstop
  · intro hstops
    refine filter_range_eq_range _ (fun {lower upper} hless hupper => ?_) _
    rw [decide_eq_true_iff] at hupper ⊢
    obtain ⟨later, hlater, hspan, hall⟩ := (hmem upper).1 hupper
    have hbound : upper < job.nChunks := (mem_contiguousBlocks_iff hpos _ _).1
      ⟨later, hlater, (mem_contiguousBlocks hlater).2 hspan⟩
    obtain ⟨earlier, hearlier, hblock⟩ :=
      (mem_contiguousBlocks_iff hpos job.nChunks lower).2 (hless.trans hbound)
    have hlower := (mem_contiguousBlocks hearlier).1 hblock
    refine (hmem lower).2 ⟨earlier, hearlier, hlower, fun other hfrom hto => ?_⟩
    by_contra hstop
    rw [Bool.not_eq_false] at hstop
    rcases lt_trichotomy earlier later with horder | rfl | hbehind
    · -- the stop has reached the later rank in front of its first block
      have hfront := hstops earlier later horder hlater
        ⟨other, (mem_contiguousBlocks hearlier).2 ⟨hfrom, by omega⟩, hstop⟩
        _ ((head_contiguousBlocks hlater).2 ⟨rfl, by omega⟩)
      rw [hall _ le_rfl hspan.1] at hfront
      cases hfront
    · rw [hall other hfrom (by omega)] at hstop
      cases hstop
    · have := spanBegin_mono job.nChunks participants
        (show later + 1 ≤ earlier from hbehind)
      omega

/-- The inline path always carries an initial segment. -/
theorem initialSegment_inline (job : Job T) (polls : Polls) :
    InitialSegment (job.completed (inlineOrder job polls)) := by
  refine filter_range_eq_range _ (fun {lower upper} hless hupper => ?_) _
  rw [decide_eq_true_iff] at hupper ⊢
  unfold inlineOrder at hupper ⊢
  split at hupper
  next => simp at hupper
  next hentry =>
    rw [if_neg hentry]
    rw [List.range_eq_range', mem_takeWhile_range'] at hupper ⊢
    exact ⟨⟨Nat.zero_le _, hless.trans hupper.1.2⟩, fun other hfrom hto =>
      hupper.2 other hfrom (by omega)⟩

end Segments

/-- A cancelled `FixedBlockOrder` reduction carries the combine of an initial
segment on the inline path, and on the typed path exactly if the stop reaches
the ranks in order. -/
theorem cancelled_initialSegment_iff {T : Type*} (job : Job T) (polls : Polls)
    {participants : ℕ} (hpos : 0 < participants) :
    InitialSegment (job.completed (inlineOrder job polls)) ∧
      ∀ order, TypedOrder job polls participants order →
        (InitialSegment (job.completed order) ↔
          StopsInOrder job polls participants) :=
  ⟨initialSegment_inline job polls, fun _ horder =>
    initialSegment_iff hpos horder⟩

/-- The first of two ranks finishes, and the second one stops in front of its
first block. -/
theorem cancelled_initialSegment_digits :
    InitialSegment (digitsJob.completed [1, 0]) := by
  refine ((@cancelled_initialSegment_iff ℕ digitsJob
    ⟨true, false, fun blockId => blockId == 2⟩ 2 (by decide)).2 [1, 0]
    (by unfold TypedOrder CompletionOrder; decide)).2 ?_
  rintro earlier later hless hlater ⟨blockId, hblock, hstop⟩
  obtain rfl : earlier = 0 := by omega
  have hblocks : contiguousBlocks digitsJob.nChunks 2 0 = [0, 1] := by decide
  rw [hblocks] at hblock
  fin_cases hblock <;> simp at hstop

/-- Chunks 0 and 2 of three complete. -/
theorem cancelled_initialSegment_not_digits :
    ¬ ∀ (job : Job ℕ) (polls : Polls) (participants : ℕ) (order : List ℕ),
      job.first < job.last → 0 < participants →
      TypedOrder job polls participants order →
      InitialSegment (job.completed order) := by
  intro hclaim
  obtain ⟨k, hk⟩ := hclaim digitsJob
    ⟨true, false, fun blockId => blockId == 1⟩ 2 [2, 0] (by decide) (by decide)
    (by unfold TypedOrder CompletionOrder; decide)
  have htwo : digitsJob.completed [2, 0] = [0, 2] := by decide
  have hlength := congrArg List.length hk
  rw [htwo] at hk hlength
  obtain rfl : k = 2 := by simpa using hlength.symm
  exact absurd hk (by decide)

end Citor.Reduce
