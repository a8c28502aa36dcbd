import Citor.Reduce.ReducePaths

/-!
# The reduction does not depend on the path

The in-place loop computes the pairwise tree, every engine fills the same
slots with the same partials, and so every engine returns the same value for
every participant count and completion order.
-/

namespace Citor.Reduce

open Citor.BlockPartition
open Citor.PairwiseTree

/-! ## The in-place loop computes the tree -/

section Combine

variable {A : Type*} (combine : A → A → A) (count : ℕ)

/-- One pass combines exactly the slots on its stride that have a sibling. -/
theorem combinePass_apply (step i : ℕ) (hstep : 0 < step) (partials : ℕ → A)
    (slot : ℕ) :
    combinePass combine count step i partials slot =
      if i ≤ slot ∧ step * 2 ∣ slot - i ∧ slot + step < count then
        combine (partials slot) (partials (slot + step))
      else partials slot := by
  induction i, partials using combinePass.induct combine count step with
  | case1 i partials hmore ih =>
      rw [combinePass, if_pos hmore, ih]
      by_cases hsame : slot = i
      · have hearlier : ¬ i + step * 2 ≤ i := by omega
        simp [hsame, hearlier, hmore.1]
      · have hother : Function.update partials i
            (combine (partials i) (partials (i + step))) slot =
              partials slot := by
          simp [hsame]
        by_cases hlater : i + step * 2 ≤ slot
        · have hnext : slot + step ≠ i := by omega
          have hdvd : step * 2 ∣ slot - (i + step * 2) ↔
              step * 2 ∣ slot - i := by
            have hsum : slot - i = (slot - (i + step * 2)) + step * 2 := by
              omega
            rw [hsum]
            simp
          have hle : i ≤ slot := by omega
          simp [hlater, hle, hdvd, hother, hnext]
        · have hdvd : ¬ (i ≤ slot ∧ step * 2 ∣ slot - i) := by
            rintro ⟨hle, hdvd⟩
            have := Nat.le_of_dvd (by omega) hdvd
            omega
          have hnot : ¬ (i ≤ slot ∧ step * 2 ∣ slot - i ∧
              slot + step < count) := fun h => hdvd ⟨h.1, h.2.1⟩
          simp only [hlater, false_and, if_false, hother, hnot]
  | case2 i partials hdone =>
      rw [combinePass, if_neg hdone]
      have hnot : ¬ (i ≤ slot ∧ step * 2 ∣ slot - i ∧
          slot + step < count) := by
        rintro ⟨hle, -, hlt⟩
        exact hdone ⟨by omega, hstep⟩
      rw [if_neg hnot]

/-- At step `2 ^ level` the slots that are multiples of the step hold the nodes
of that level. -/
def HoldsLevel (leaf partials : ℕ → A) (level : ℕ) : Prop :=
  ∀ index, index * 2 ^ level < count →
    partials (index * 2 ^ level) = node combine count leaf level index

theorem holdsLevel_combinePass {leaf partials : ℕ → A} {level : ℕ}
    (hlevel : HoldsLevel combine count leaf partials level) :
    HoldsLevel combine count leaf
      (combinePass combine count (2 ^ level) 0 partials) (level + 1) := by
  intro index hindex
  have hpos : 0 < 2 ^ level := Nat.two_pow_pos level
  have hstride : 2 ^ (level + 1) = 2 ^ level * 2 := pow_succ 2 level
  have hleft : index * 2 ^ (level + 1) = 2 * index * 2 ^ level := by
    rw [hstride]
    ring
  have hright : index * 2 ^ (level + 1) + 2 ^ level =
      (2 * index + 1) * 2 ^ level := by
    rw [hstride]
    ring
  rw [combinePass_apply combine count _ 0 hpos]
  simp only [Nat.zero_le, Nat.sub_zero, true_and, node]
  have hdvd : 2 ^ level * 2 ∣ index * 2 ^ (level + 1) := by
    rw [hstride]
    exact Nat.dvd_mul_left _ _
  rw [hright]
  simp only [hdvd, true_and]
  rw [hleft, hlevel (2 * index) (by omega)]
  split
  next hsibling => rw [hlevel (2 * index + 1) hsibling]
  next => rfl

theorem combineUp_zero {leaf : ℕ → A} (hcount : 0 < count) (level : ℕ)
    (partials : ℕ → A) (hlevel : HoldsLevel combine count leaf partials level)
    (hlow : level ≤ Nat.clog 2 count) :
    combineUp combine count (2 ^ level) partials 0 =
      pairwiseTree combine count leaf := by
  induction hgap : Nat.clog 2 count - level generalizing level partials with
  | zero =>
      have hroot : level = Nat.clog 2 count := by omega
      have hspan : count ≤ 2 ^ level := by
        rw [hroot]
        exact Nat.le_pow_clog (by decide) count
      rw [combineUp, if_neg (by omega)]
      have hzero := hlevel 0 (by omega)
      rw [Nat.zero_mul] at hzero
      rw [hzero, hroot, pairwiseTree]
  | succ gap ih =>
      have hbelow : 2 ^ level < count := by
        apply Nat.pow_lt_of_lt_clog (by omega)
      rw [combineUp, if_pos ⟨hbelow, Nat.two_pow_pos level⟩, ← pow_succ]
      exact ih (level + 1) _ (holdsLevel_combinePass combine count hlevel)
        (by omega) (by omega)

/-- The doubling loop leaves the pairwise tree over the slots in slot 0. -/
theorem combineUp_eq_pairwiseTree (hcount : 0 < count) (partials : ℕ → A) :
    combineUp combine count 1 partials 0 =
      pairwiseTree combine count partials := by
  apply combineUp_zero combine count hcount 0 partials _ (Nat.zero_le _)
  intro index hindex
  simp [node]

theorem pairwiseTree_congr {leaf other : ℕ → A} (hcount : 0 < count)
    (hleaf : ∀ index < count, leaf index = other index) :
    pairwiseTree combine count leaf = pairwiseTree combine count other :=
  node_congr combine hleaf _ 0 (by omega)

end Combine

/-- The vector form of the loop, over the first partials of a sequence. -/
theorem pairwiseTreeCombine_map_range {A : Type*} [Inhabited A]
    (combine : A → A → A) {count : ℕ} (hcount : 0 < count) (leaf : ℕ → A) :
    pairwiseTreeCombine ((List.range count).map leaf) combine =
      pairwiseTree combine count leaf := by
  have hlength : ((List.range count).map leaf).length = count := by simp
  have hslots : ∀ index < count,
      ((List.range count).map leaf).getD index default = leaf index := by
    intro index hindex
    simp [List.getD, hindex]
  cases hpartials : (List.range count).map leaf with
  | nil =>
      rw [hpartials] at hlength
      simp only [List.length_nil] at hlength
      omega
  | cons head tail =>
      rw [hpartials] at hlength hslots
      simp only [pairwiseTreeCombine]
      rw [hlength, combineUp_eq_pairwiseTree combine count hcount]
      exact pairwiseTree_congr combine count hcount hslots

/-! ## Every engine fills the same slots -/

/-- Writing each block's value to the block's slot, in any order. -/
theorem foldl_update_apply {A : Type*} (value scratch : ℕ → A)
    (order : List ℕ) (slot : ℕ) :
    order.foldl (fun partials blockId =>
        Function.update partials blockId (value blockId)) scratch slot =
      if slot ∈ order then value slot else scratch slot := by
  induction order generalizing scratch with
  | nil => simp
  | cons blockId rest ih =>
      rw [List.foldl_cons, ih]
      by_cases hrest : slot ∈ rest
      · simp [hrest]
      · by_cases hsame : slot = blockId
        · simp [hsame]
        · simp [hrest, hsame]

section Call

variable {T A : Type*} [Inhabited A] (mode : Mode T A) (job : Job T)
variable {canStop : Bool} {participants : ℕ} {order : List ℕ}

theorem Job.chunk_pos (hrange : job.first < job.last) : 0 < job.chunk :=
  reduceChunkSize_pos (by unfold Job.n; omega) job.hintChunk

theorem Job.nChunks_pos (hrange : job.first < job.last) : 0 < job.nChunks :=
  ceilDiv_pos (by unfold Job.n; omega)

theorem rankBlocks_never (blocks : List ℕ) :
    rankBlocks (Polls.never canStop) blocks = blocks := by
  simp [rankBlocks, Polls.never]

/-- Without a stop the typed engine completes every block. -/
theorem mem_typedOrder (hpos : 0 < participants)
    (horder : TypedOrder job (Polls.never canStop) participants order)
    (blockId : ℕ) : blockId ∈ order ↔ blockId < job.nChunks := by
  rw [horder.mem_iff, ← mem_contiguousBlocks_iff hpos]
  simp [rankBlocks_never]

/-- Without a stop the runtime engine completes every block. -/
theorem mem_runtimeOrder (hpos : 0 < participants)
    (horder : RuntimeOrder job (Polls.never canStop) participants order)
    (blockId : ℕ) : blockId ∈ order ↔ blockId < job.nChunks := by
  rw [horder.mem_iff, ← mem_staticBlocks_iff hpos]
  simp [rankBlocks_never]

/-- What every engine returns: the caller's combine of `init` and the pairwise
tree over the partials of the chunks. -/
def Job.value : T :=
  job.combine job.init (mode.root
    (pairwiseTree mode.node job.nChunks fun blockId =>
      mode.leaf (job.mapped blockId)))

omit [Inhabited A] in
theorem inlinePartials_never (remaining b : ℕ) (partials : List A) :
    inlinePartials mode job (Polls.never canStop) remaining b partials =
      partials ++ (List.range' b remaining).map fun blockId =>
        mode.leaf (job.mapped blockId) := by
  induction remaining generalizing b partials with
  | zero => simp [inlinePartials]
  | succ remaining ih =>
      have hpoll : ((Polls.never canStop).canStop &&
          (Polls.never canStop).atBlock b) = false := by
        simp [Polls.never]
      rw [inlinePartials, hpoll, if_neg Bool.false_ne_true, ih,
        List.range'_succ, List.map_cons, List.append_assoc]
      rfl

theorem runReduceInlineImpl_eq (hrange : job.first < job.last) :
    runReduceInlineImpl mode job (Polls.never canStop) =
      .ok (job.value mode) := by
  have hcount := job.nChunks_pos hrange
  have hpartials : inlinePartials mode job (Polls.never canStop)
      job.nChunks 0 [] = (List.range job.nChunks).map fun blockId =>
        mode.leaf (job.mapped blockId) := by
    rw [inlinePartials_never, List.nil_append, List.range_eq_range']
  have hnonempty : (List.range job.nChunks).isEmpty = false := by
    simp
    omega
  simp only [runReduceInlineImpl, hpartials]
  simp [Polls.never, hnonempty, pairwiseTreeCombine_map_range _ hcount, Job.value]

omit [Inhabited A] in
/-- With a word for every partial the typed engine fills every slot. -/
theorem runReduceParallel_eq {packed : Bool} {accesses : List Access}
    (hrange : job.first < job.last)
    (hown : partialsPerWord packed job.nChunks = 1) (hpos : 0 < participants)
    (scratch : ℕ → A)
    (haccesses : TypedAccesses job.nChunks participants accesses) :
    runReduceParallel mode job packed scratch accesses =
      .ok (job.value mode) := by
  have hcount := job.nChunks_pos hrange
  simp only [runReduceParallel, Job.value,
    combineUp_eq_pairwiseTree _ _ hcount]
  congr 3
  apply pairwiseTree_congr _ _ hcount
  intro index hindex
  rw [Partials.run_slots_of_store hown,
    if_pos (haccesses.store_mem hpos hindex)]

/-- With every chunk completed nothing is missed. -/
theorem combineCompleted_eq (hrange : job.first < job.last)
    (partials : ℕ → Slot A)
    (hdone : ∀ blockId < job.nChunks,
      partials blockId = ⟨mode.leaf (job.mapped blockId), true⟩) :
    combineCompleted mode job partials = .ok (job.value mode) := by
  have hcount := job.nChunks_pos hrange
  have hflat : ((List.range job.nChunks).filterMap fun i =>
      if (partials i).done then some (partials i).value else none) =
      (List.range job.nChunks).map fun blockId =>
        mode.leaf (job.mapped blockId) := by
    rw [← List.filterMap_eq_map]
    apply List.filterMap_congr
    intro blockId hblock
    rw [hdone blockId (List.mem_range.mp hblock)]
    rfl
  have hmissed : ((List.range job.nChunks).any fun i =>
      !(partials i).done) = false := by
    rw [List.any_eq_false]
    intro blockId hblock
    rw [hdone blockId (List.mem_range.mp hblock)]
    simp
  have hnonempty : ((List.range job.nChunks).map fun blockId =>
      mode.leaf (job.mapped blockId)).isEmpty = false := by
    simp
    omega
  simp only [combineCompleted, hflat, hmissed, hnonempty, Job.value,
    pairwiseTreeCombine_map_range _ hcount]
  rfl

omit [Inhabited A] in
/-- The slots after every block of an order has completed. -/
theorem slots_of_order (scratch : ℕ → A)
    (hall : ∀ blockId, blockId ∈ order ↔ blockId < job.nChunks) :
    ∀ blockId < job.nChunks,
      order.foldl (fun partials blockId =>
        Function.update partials blockId
          (Slot.mk (mode.leaf (job.mapped blockId)) true))
        (fun i => ⟨scratch i, false⟩) blockId =
          ⟨mode.leaf (job.mapped blockId), true⟩ := by
  intro blockId hblock
  rw [foldl_update_apply fun blockId =>
    Slot.mk (mode.leaf (job.mapped blockId)) true]
  simp [(hall blockId).mpr hblock]

theorem runReduceParallelCancellable_eq (hrange : job.first < job.last)
    (hpos : 0 < participants) (scratch : ℕ → A)
    (horder : TypedOrder job (Polls.never canStop) participants order) :
    runReduceParallelCancellable mode job scratch order =
      .ok (job.value mode) :=
  combineCompleted_eq mode job hrange _
    (slots_of_order mode job scratch (mem_typedOrder job hpos horder))

theorem runReduceParallelRuntime_eq (hrange : job.first < job.last)
    (hpos : 0 < participants) (scratch : ℕ → A)
    (horder : RuntimeOrder job (Polls.never canStop) participants order) :
    runReduceParallelRuntime mode job scratch order =
      .ok (job.value mode) := by
  unfold runReduceParallelRuntime
  simp only [blockLo_sub_div (job.chunk_pos hrange)]
  exact combineCompleted_eq mode job hrange _
    (slots_of_order mode job scratch (mem_runtimeOrder job hpos horder))

end Call

/-! ## Path independence -/

/-- Whatever the token's kind, the participant count, the order of the ranks'
accesses and the slots' initial content: every implementation returns
`value`. -/
structure EveryPathReturns {T A : Type*} [Inhabited A] (mode : Mode T A)
    (job : Job T) (packed : Bool) (value : T) : Prop where
  inlined : ∀ canStop,
    runReduceInlineImpl mode job (Polls.never canStop) = .ok value
  typed : ∀ participants > 0, ∀ scratch accesses,
    TypedAccesses job.nChunks participants accesses →
      runReduceParallel mode job packed scratch accesses = .ok value
  typedCancellable : ∀ participants > 0, ∀ scratch order,
    TypedOrder job (Polls.never true) participants order →
      runReduceParallelCancellable mode job scratch order = .ok value
  runtime : ∀ participants > 0, ∀ canStop scratch order,
    RuntimeOrder job (Polls.never canStop) participants order →
      runReduceParallelRuntime mode job scratch order = .ok value

theorem everyPathReturns_value {T A : Type*} [Inhabited A] (mode : Mode T A)
    (job : Job T) {packed : Bool} (hrange : job.first < job.last)
    (hown : partialsPerWord packed job.nChunks = 1) :
    EveryPathReturns mode job packed (job.value mode) where
  inlined _ := runReduceInlineImpl_eq mode job hrange
  typed _ hpos scratch _ haccesses :=
    runReduceParallel_eq mode job hrange hown hpos scratch haccesses
  typedCancellable _ hpos scratch _ horder :=
    runReduceParallelCancellable_eq mode job hrange hpos scratch horder
  runtime _ hpos _ scratch _ horder :=
    runReduceParallelRuntime_eq mode job hrange hpos scratch horder

theorem partialsPerWord_eq_one_iff {packed : Bool} {nChunks : ℕ} :
    partialsPerWord packed nChunks = 1 ↔
      packed = false ∨ nChunks ≤ kReduceMaxChunks := by
  cases packed <;> simp [partialsPerWord]

/-- Both reductions return the caller's combine of `init` and the tree over the
chunk partials, and for an associative combine the plain tree is the fold of
the chunk partials in chunk order.  A pair of doubles is never packed. -/
structure PathIndependent {T Double : Type*} [Inhabited T] [Add Double]
    [Sub Double] [Neg Double] [Zero Double] (element : ElementType T)
    (toDouble : T → Double) (ofDouble : Double → T) (job : Job T) : Prop where
  plain : EveryPathReturns (fixedBlock job.combine) job element.packed
    (job.combine job.init
      (pairwiseTree job.combine job.nChunks job.mapped))
  kahan : EveryPathReturns (kahanCompensated toDouble ofDouble) job false
    (job.combine job.init (ofDouble
      (pairwiseTree kahanCombine job.nChunks fun blockId =>
        kahanAdd ⟨0, 0⟩ (toDouble (job.mapped blockId))).sum))
  fold : (∀ a b c, job.combine (job.combine a b) c =
      job.combine a (job.combine b c)) →
    pairwiseTree job.combine job.nChunks job.mapped =
      ((List.range' 1 (job.nChunks - 1)).map job.mapped).foldl job.combine
        (job.mapped 0)

theorem pathIndependent_of_own {T Double : Type*} [Inhabited T] [Add Double]
    [Sub Double] [Neg Double] [Zero Double] (element : ElementType T)
    (toDouble : T → Double) (ofDouble : Double → T) (job : Job T)
    (hrange : job.first < job.last)
    (hown : partialsPerWord element.packed job.nChunks = 1) :
    PathIndependent element toDouble ofDouble job where
  plain := everyPathReturns_value _ job hrange hown
  kahan := everyPathReturns_value (kahanCompensated toDouble ofDouble) job
    hrange (partialsPerWord_eq_one_iff.2 (.inl rfl))
  fold hassoc := by
    have : Std.Associative job.combine := ⟨hassoc⟩
    exact pairwiseTree_eq_foldLeaves job.combine job.mapped
      (job.nChunks_pos hrange)

/-! ### Flags -/

section Flags

variable {T : Type*} {asBool : T ≃ Bool}

/-- Both flags are set. -/
def bothSet (asBool : T ≃ Bool) (left right : T) : T :=
  asBool.symm (asBool left && asBool right)

@[simp]
theorem asBool_bothSet (left right : T) :
    asBool (bothSet asBool left right) = (asBool left && asBool right) :=
  asBool.apply_symm_apply _

theorem asBool_foldl (flags : List T) (flag : T) :
    asBool (flags.foldl (bothSet asBool) flag) =
      (asBool flag && flags.all fun other => asBool other) := by
  induction flags generalizing flag with
  | nil => simp
  | cons head rest ih =>
      rw [List.foldl_cons, ih, asBool_bothSet, List.all_cons, Bool.and_assoc]

/-- The tree over flags says whether all of them are set. -/
theorem asBool_pairwiseTree {count : ℕ} (hcount : 0 < count) (leaf : ℕ → T) :
    asBool (pairwiseTree (bothSet asBool) count leaf) = true ↔
      ∀ index < count, asBool (leaf index) = true := by
  have : Std.Associative (bothSet asBool) := by
    constructor
    intro left middle right
    apply asBool.injective
    simp only [asBool_bothSet, Bool.and_assoc]
  rw [pairwiseTree_eq_foldLeaves _ leaf hcount, foldLeaves, asBool_foldl]
  simp only [Bool.and_eq_true, List.all_eq_true, List.forall_mem_map,
    List.mem_range'_1]
  constructor
  · rintro ⟨hzero, hrest⟩ index hindex
    rcases Nat.eq_zero_or_pos index with rfl | hpos
    · exact hzero
    · exact hrest index (by omega)
  · intro hall
    exact ⟨hall 0 hcount, fun index hindex => hall index (by omega)⟩

/-- Where the first two ranks share a word, a lost update leaves a flag unset
and the typed engine says that not all are set. -/
theorem runReduceParallel_lostUpdate (job : Job T) (participants slot : ℕ)
    (hcombine : job.combine = bothSet asBool)
    (hmany : kReduceMaxChunks < job.nChunks)
    (hspan : spanBegin job.nChunks participants 1 < job.nChunks)
    (hslot : slot < spanBegin job.nChunks participants 1)
    (hword : slot / 64 = spanBegin job.nChunks participants 1 / 64) :
    runReduceParallel (fixedBlock job.combine) job true
        (fun _ => asBool.symm false)
        (lostUpdate job.nChunks (spanBegin job.nChunks participants 1)) =
      .ok (asBool.symm false) := by
  have hshared : partialsPerWord true job.nChunks = 64 := by
    simp [partialsPerWord, Nat.not_le.2 hmany]
  have hcount : 0 < job.nChunks := Nat.zero_lt_of_lt hspan
  simp only [runReduceParallel, fixedBlock, hshared, hcombine,
    combineUp_eq_pairwiseTree _ _ hcount, id_eq]
  congr 1
  apply asBool.injective
  rw [asBool_bothSet, asBool.apply_symm_apply, Bool.and_eq_false_iff,
    ← Bool.not_eq_true, ← Bool.not_eq_true, asBool_pairwiseTree hcount]
  right
  intro hall
  have hlost := hall slot (hslot.trans hspan)
  rw [Partials.run_lostUpdate _ hslot hword] at hlost
  simp at hlost

/-- Every chunk sets its flag. -/
def flagsJob (asBool : T ≃ Bool) (first last hintChunk : ℕ) : Job T where
  first := first
  last := last
  hintChunk := hintChunk
  init := asBool.symm true
  map := fun _ _ => asBool.symm true
  combine := bothSet asBool

variable {first last hintChunk : ℕ}

theorem flagsJob_value [Inhabited T] (hrange : first < last) :
    (flagsJob asBool first last hintChunk).combine
        (flagsJob asBool first last hintChunk).init
        (pairwiseTree (flagsJob asBool first last hintChunk).combine
          (flagsJob asBool first last hintChunk).nChunks
          (flagsJob asBool first last hintChunk).mapped) =
      asBool.symm true := by
  have hcount := (flagsJob asBool first last hintChunk).nChunks_pos hrange
  apply asBool.injective
  simp only [flagsJob, asBool_bothSet, asBool.apply_symm_apply, Bool.true_and]
  exact (asBool_pairwiseTree hcount _).2 fun index _ => by simp [Job.mapped]

/-- So the flags show the path where the first two ranks share a word. -/
theorem flagsJob_not_pathIndependent {Double : Type*} [Inhabited T]
    [Add Double] [Sub Double] [Neg Double] [Zero Double]
    (toDouble : T → Double) (ofDouble : Double → T) (participants slot : ℕ)
    (hrange : first < last) (hparticipants : 0 < participants)
    (hmany : kReduceMaxChunks <
      (flagsJob asBool first last hintChunk).nChunks)
    (hspan : spanBegin (flagsJob asBool first last hintChunk).nChunks
      participants 1 < (flagsJob asBool first last hintChunk).nChunks)
    (hslot : slot < spanBegin (flagsJob asBool first last hintChunk).nChunks
      participants 1)
    (hword : slot / 64 = spanBegin (flagsJob asBool first last
      hintChunk).nChunks participants 1 / 64) :
    ¬ PathIndependent (.bool asBool) toDouble ofDouble
      (flagsJob asBool first last hintChunk) := by
  intro hclaim
  have hplain := hclaim.plain
  rw [flagsJob_value hrange] at hplain
  have hlost := runReduceParallel_lostUpdate
    (flagsJob asBool first last hintChunk) participants slot rfl hmany hspan
    hslot hword
  have htyped := hplain.typed participants hparticipants
    (fun _ => asBool.symm false) _ (typedAccesses_lostUpdate hspan)
  have hsame := htyped.symm.trans hlost
  simp at hsame

end Flags

/-- The reduction does not depend on the path, whatever is mapped and combined,
exactly if the elements are not `bool` or there are at most 64 chunks. -/
theorem parallelReduce_path_independent_iff {T Double : Type*} [Inhabited T]
    [Add Double] [Sub Double] [Neg Double] [Zero Double]
    (element : ElementType T) (toDouble : T → Double) (ofDouble : Double → T)
    (first last hintChunk : ℕ) (hrange : first < last) :
    (∀ init map combine, PathIndependent element toDouble ofDouble
        ⟨first, last, hintChunk, init, map, combine⟩) ↔
      element.packed = false ∨
        ceilDiv (last - first) (reduceChunkSize (last - first) hintChunk) ≤
          kReduceMaxChunks := by
  constructor
  · intro hclaim
    cases element with
    | other => exact .inl rfl
    | bool asBool =>
        right
        by_contra hmany
        have hlarge : kReduceMaxChunks <
            (flagsJob asBool first last hintChunk).nChunks := Nat.not_le.1 hmany
        have hpos := Nat.zero_lt_of_lt hlarge
        have hsecond := spanBegin_self hpos
        apply flagsJob_not_pathIndependent toDouble ofDouble
          (flagsJob asBool first last hintChunk).nChunks 0 hrange hpos hlarge
          _ _ _ (hclaim (asBool.symm true) (fun _ _ => asBool.symm true)
            (bothSet asBool))
        all_goals rw [hsecond]
        · exact lt_trans (by decide) hlarge
        · exact Nat.one_pos
  · intro hcondition init map combine
    exact pathIndependent_of_own element toDouble ofDouble _ hrange
      (partialsPerWord_eq_one_iff.2 hcondition)

/-- A combine that is neither commutative nor associative. -/
def digitsJob : Job ℕ where
  first := 3
  last := 10
  hintChunk := 3
  init := 1
  map := fun lo hi => lo + hi
  combine := fun left right => 100 * left + right

theorem digitsJob_path_independent :
    PathIndependent .other Int.ofNat Int.toNat digitsJob :=
  (parallelReduce_path_independent_iff .other Int.ofNat Int.toNat 3 10 3
    (by decide)).2 (.inl rfl) 1 (fun lo hi => lo + hi)
    (fun left right => 100 * left + right)

/-- A hundred chunks of one index each, all of which set their flag: a pool of
two loses the flags of the first rank. -/
theorem hundredFlags_not_path_independent :
    TypedAccesses 100 2 (lostUpdate 100 50) ∧
      runReduceParallel (fixedBlock (bothSet (Equiv.refl Bool)))
          (flagsJob (Equiv.refl Bool) 0 100 1) true (fun _ => false)
          (lostUpdate 100 50) = .ok false ∧
      ¬ PathIndependent (.bool (Equiv.refl Bool)) Bool.toInt
        (fun double : ℤ => double == 1)
        (flagsJob (Equiv.refl Bool) 0 100 1) := by
  have hchunks : (flagsJob (Equiv.refl Bool) 0 100 1).nChunks = 100 := by
    decide
  have hsecond : spanBegin 100 2 1 = 50 := by decide
  have haccesses : TypedAccesses 100 2 (lostUpdate 100 (spanBegin 100 2 1)) :=
    typedAccesses_lostUpdate (by decide)
  have hlost := runReduceParallel_lostUpdate
    (flagsJob (Equiv.refl Bool) 0 100 1) 2 49 rfl
  rw [hsecond] at haccesses
  rw [hchunks, hsecond] at hlost
  refine ⟨haccesses, hlost (by decide) (by decide) (by decide) (by decide), ?_⟩
  apply flagsJob_not_pathIndependent _ _ 2 49 (by decide) (by decide)
  all_goals
    rw [hchunks]
    decide

end Citor.Reduce
