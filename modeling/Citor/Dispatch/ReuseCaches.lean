import Citor.Dispatch.JobRuns

/-!
# The reuse bit over histories of calls

The reducer's descriptor holds nothing that names a pool.  A reduce on a second
pool rewrites it; the same reduce back on the first pool then compares equal,
and the first pool's record still names the descriptor, so the call is
published with the reuse bit while the workers keep the parameters of the call
before.  Where equal fields were left there by the same pool, and nobody is
late, the caches match, and a call runs the same blocks as on fresh pools.
-/

namespace Citor.JobCaches

open Interleaving

/-- The blocks run for a generation of a pool, with their parameters. -/
def outcome (pool generation : ℕ) (trace : List Event) : List (ℕ × Params) :=
  trace.filterMap fun event => match event with
    | .ran pool' generation' _ blockId params =>
        if pool' = pool ∧ generation' = generation then some (blockId, params)
        else none
    | _ => none

/-- What a call is asked to run. -/
def Call.outcome (program : Program) (call : Call) : List (ℕ × Params) :=
  (List.range (call.params program).blockCount).map (·, call.params program)

/-- A call has returned, none of its shares was left early, and it ran some
blocks. -/
def Completed (trace : List Event) (pool generation : ℕ) (call : Call)
    (blocks : List (ℕ × Params)) : Prop :=
  ∃ earlier later, trace = earlier ++ .returned pool generation :: later ∧
    Event.called pool generation call ∈ earlier ∧
    ¬ LeftEarly pool generation earlier ∧
    blocks = outcome pool generation earlier

section Outcomes

variable {program : Program} {trace : List Event} {state : State}
variable {pool generation : ℕ} {call : Call}

/-- Where all blocks are run under one set of parameters, the blocks say it
all. -/
theorem outcome_eq_map {params : Params}
    (hparams : ∀ rank blockId params',
      Event.ran pool generation rank blockId params' ∈ trace →
      params' = params) :
    outcome pool generation trace =
      (blocksRun pool generation trace).map (·, params) := by
  induction trace with
  | nil => rfl
  | cons event rest ih =>
      have hrest := ih fun rank blockId params' hmem =>
        hparams rank blockId params' (List.mem_cons_of_mem _ hmem)
      unfold outcome blocksRun at hrest ⊢
      cases event with
      | ran pool' generation' rank blockId params' =>
          by_cases hsame : pool' = pool ∧ generation' = generation
          · obtain ⟨rfl, rfl⟩ := hsame
            have hvalue := hparams rank blockId params'
              (List.mem_cons_self ..)
            simp [hrest, hvalue]
          · simp [hrest, hsame]
      | _ => simpa using hrest

/-- A completed call has run what it was asked to. -/
theorem Completed.perm (hright : AllEvents (EventRight program) trace)
    {blocks : List (ℕ × Params)}
    (hcompleted : Completed trace pool generation call blocks) :
    blocks.Perm (call.outcome program) := by
  obtain ⟨earlier, later, hsplit, hcalled, hclean, rfl⟩ := hcompleted
  obtain ⟨-, other, hother, hblocks⟩ := (hright _ _ _ hsplit).1
  have hmem : ∀ event ∈ earlier, event ∈ trace := fun event hevent =>
    hsplit ▸ List.mem_append_left _ hevent
  obtain rfl := hright.called_unique (hmem _ hcalled) (hmem _ hother)
  have hparams : ∀ rank blockId params',
      Event.ran pool generation rank blockId params' ∈ earlier →
      params' = call.params program := by
    intro rank blockId params' hran
    obtain ⟨front, back, hran⟩ := List.append_of_mem (hmem _ hran)
    obtain ⟨runner, hrunner, hvalue, -⟩ := (hright _ _ _ hran).1.1
    have hsame := hright.called_unique (hmem _ hcalled)
      (hran ▸ List.mem_append_left _ hrunner)
    rw [hvalue, hsame]
  rw [Call.outcome, outcome_eq_map hparams]
  exact (hblocks hclean).map _

/-- Over every history of careful steps a reuse publication is sound, and a
call's outcome is the same as that of a pool's first call. -/
theorem reuseSound_of_careful
    (run : Run (machine program) (Careful program) start trace state) :
    ReuseSound program state ∧
    ∀ pool generation call blocks,
      Completed trace pool generation call blocks →
      blocks.Perm (call.outcome program) ∧
      ∀ fresh freshState, Run (machine program) (Careful program) start fresh
        freshState →
      ∀ freshBlocks, Completed fresh pool 1 call freshBlocks →
        blocks.Perm freshBlocks := by
  obtain ⟨ranks, hinv⟩ := inv_of_run (fun _ hcareful => hcareful) run
  have hright := events_of_run (fun _ hcareful => hcareful) run
  refine ⟨hinv.reuseSound, fun pool generation call blocks hcompleted => ?_⟩
  have hblocks := hcompleted.perm hright
  refine ⟨hblocks, fun fresh freshState hfresh freshBlocks hfirst => ?_⟩
  have hrightFresh := events_of_run (fun _ hcareful => hcareful) hfresh
  exact hblocks.trans (hfirst.perm hrightFresh).symm

end Outcomes

/-! ## A reducer on two pools -/

/-- Two pools of two participants each, and a reducer without cancellation. -/
def reducePools : Program where
  entries := fun entry => ⟨.contiguous, 0, 0, false, true, entry⟩
  pools := 2
  participants := fun _ => 2
  participants_pos := fun _ => Nat.zero_lt_two

/-- Two chunks on a pool; the reducer's job is at some address. -/
def reduceOn (pool fnPtr : ℕ) : Call :=
  ⟨0, pool, 1, fnPtr, 0, 8, 4, 2, 0, true, false⟩

/-- The same reduce twice on one pool: the second call is published with the
reuse bit. -/
def reducedTwice : List Action :=
  List.flatten
    [[.call (reduceOn 0 100)], List.replicate 22 .producer,
      List.replicate 18 (.worker 0 1), List.replicate 2 .producer,
      [.call (reduceOn 0 100)], List.replicate 14 .producer]

theorem reuseSound_reducedTwice :
    ∃ trace state, Run (machine reducePools) (Careful reducePools) start trace
        state ∧
      Event.returned 0 1 ∈ trace ∧
      state.producer = .publish (reduceOn 0 100) ⟨2, true, false⟩ 1 ∧
      ReuseSound reducePools state := by
  obtain ⟨trace, state, run, haccept⟩ := run_of_checked (machine reducePools)
    (fun state action => decide (AckInTime state action ∧
      DescriptorFree reducePools state action ∧
      FilledHere reducePools state action)) (fun _ => True)
    (fun _ hcheck => of_decide_eq_true hcheck)
    (fun _ _ _ => trivial) start trivial reducedTwice
    (fun trace state => decide (Event.returned 0 1 ∈ trace ∧
      state.producer = .publish (reduceOn 0 100) ⟨2, true, false⟩ 1))
    (by decide +kernel)
  obtain ⟨hreturned, hpublishes⟩ := of_decide_eq_true haccept
  exact ⟨trace, state, run, hreturned, hpublishes,
    (reuseSound_of_careful run).1⟩

/-- One reduce on the first pool, another one on the second, and that one on
the first pool. -/
def reducedThere : List Action :=
  List.flatten
    [[.call (reduceOn 0 100)], List.replicate 22 .producer,
      List.replicate 18 (.worker 0 1), List.replicate 2 .producer,
      [.call (reduceOn 1 200)], List.replicate 22 .producer,
      List.replicate 18 (.worker 1 1), List.replicate 2 .producer,
      [.call (reduceOn 0 200)], List.replicate 14 .producer]

/-- The first pool's worker keeps the parameters of the first call. -/
theorem not_reuseSound_reducedThere :
    ¬ ∀ (program : Program) trace state,
      Reaches (machine program) start trace state →
      ReuseSound program state := by
  intro hclaim
  obtain ⟨trace, state, run, haccept⟩ := reaches_of_check
    (machine reducePools) start reducedThere
    (fun _ state => decide
      (state.producer = .publish (reduceOn 0 200) ⟨2, true, false⟩ 1 ∧
      EntryKind.contiguous.copied.any (fun field =>
        decide (((state.slots (0, 1)).worker.cache reducePools).fields field ≠
          (state.descs ⟨0, .parallelReduce⟩).fields field)) = true))
    (by decide +kernel)
  obtain ⟨hpublishes, hdiffers⟩ := of_decide_eq_true haccept
  obtain ⟨field, hcopied, hfield⟩ := List.any_eq_true.1 hdiffers
  refine of_decide_eq_true hfield ?_
  exact (hclaim reducePools trace state run _ _ _ hpublishes rfl 1 Nat.one_pos
    Nat.one_lt_two).copied field hcopied

end Citor.JobCaches
