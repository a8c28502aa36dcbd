import Citor.Core.SharedMemory
import Citor.Chain.DynamicChain

/-!
# A dynamic chain call amounts to its nested loops

The bodies of a dynamic chain work on shared memory, index by index.  If the
indices of one stage do not interfere with each other, a call that nobody stops
and in which nothing throws leaves the memory behind that the plain loops over
stages and indices make, whatever the chunk, the slots and the claims.
-/

namespace Citor.DynamicChain

open Citor.Interleaving
open Citor.DoneSlots
open Citor.SlotRunners
open SharedMemory (Brackets Separated Commutes withMemory begin perform)

/-! ## Blocks -/

structure Block where
  stage : ℕ
  block : ℕ
  deriving DecidableEq, Repr

def Event.opens : Event → Option Block
  | .blockStart stage _ block => some ⟨stage, block⟩
  | _ => none

def Event.closes : Event → Option Block
  | .blockEnd stage _ block => some ⟨stage, block⟩
  | _ => none

def Event.stage : Event → ℕ
  | .blockStart stage _ _ | .blockEnd stage _ _ => stage
  | .blockThrow failure | .captured failure => failure.stage

def blocks : Brackets Event Block := ⟨Event.opens, Event.closes⟩

/-- The blocks stage by stage. -/
def Call.blockOrder (call : Call) : List Block :=
  (List.range call.nStages).flatMap fun stage =>
    (List.range call.blockCount).map (Block.mk stage)

/-- The indices that the body of a block loops over. -/
def Call.indices (call : Call) (block : ℕ) : List ℕ :=
  List.range' (call.blockRange block).1
    ((call.blockRange block).2 - (call.blockRange block).1)

section Order

variable {call : Call}

theorem mem_blockOrder {block : Block} :
    block ∈ call.blockOrder ↔
      block.stage < call.nStages ∧ block.block < call.blockCount := by
  obtain ⟨stage, block⟩ := block
  simp [Call.blockOrder]

theorem nodup_blockOrder : call.blockOrder.Nodup := by
  rw [Call.blockOrder, List.nodup_flatMap]
  constructor
  · intro stage _
    apply List.nodup_range.map
    intro left right hsame
    simpa using hsame
  · apply List.nodup_range.imp
    intro left right hne block hleft hright
    obtain ⟨_, -, rfl⟩ := List.mem_map.1 hleft
    obtain ⟨_, -, hsame⟩ := List.mem_map.1 hright
    exact hne (congrArg Block.stage hsame).symm

theorem mem_indices {block index : ℕ} (hblock : block < call.blockCount) :
    index ∈ call.indices block ↔
      block * call.chunk ≤ index ∧ index < (block + 1) * call.chunk ∧
        index < call.n := by
  have hlt := (call.block_lt_iff block).1 hblock
  rw [Call.indices, call.blockRange_eq hblock, List.mem_range'_1, Nat.succ_mul]
  omega

/-- The first blocks loop over the first indices. -/
theorem indices_take {count : ℕ} (hcount : count ≤ call.blockCount) :
    (List.range count).flatMap call.indices =
      List.range (min (count * call.chunk) call.n) := by
  induction count with
  | zero => simp
  | succ count ih =>
      have hlt := (call.block_lt_iff count).1 hcount
      rw [List.range_succ, List.flatMap_append, ih (by omega),
        List.flatMap_singleton, Call.indices, call.blockRange_eq hcount,
        min_eq_left hlt.le, List.range_eq_range', List.range_eq_range',
        Nat.succ_mul]
      have happend := List.range'_append_1 (s := 0)
        (m := count * call.chunk)
        (n := min (count * call.chunk + call.chunk) call.n -
          count * call.chunk)
      rw [Nat.zero_add] at happend
      rw [happend]
      congr 1
      omega

/-- All blocks together loop over the whole range. -/
theorem indices_all :
    (List.range call.blockCount).flatMap call.indices = List.range call.n := by
  rw [indices_take le_rfl, min_eq_right]
  by_contra hlt
  exact absurd ((call.block_lt_iff call.blockCount).2 (not_le.1 hlt))
    (lt_irrefl _)

end Order

/-! ## What lies behind an event -/

section Run

variable {call : Call} {trace : List Event} {before after state : State}

/-- A block ends in itself only. -/
theorem step_blockEnd {action : Action} {stage slot block : ℕ}
    (hstep : (dynamicChain call).step before action =
      some (after, some (.blockEnd stage slot block))) :
    before.pc slot = .inBlock stage block := by
  cases action with
  | slot mover =>
      simp only [dynamicChain] at hstep
      split at hstep
      next hmover =>
        cases hpc : before.pc mover <;> simp only [stepSlot, hpc] at hstep
        all_goals
          repeat' split at hstep
        all_goals
          simp only [Option.some.injEq, Prod.mk.injEq, reduceCtorEq, and_false,
            Event.blockEnd.injEq] at hstep
        obtain ⟨-, rfl, rfl, rfl⟩ := hstep
        exact hpc
      next => simp at hstep
  | join =>
      simp only [dynamicChain] at hstep
      split at hstep <;> simp at hstep
  | requestStop => simp [dynamicChain] at hstep

/-- A slot gets into a block by starting it. -/
theorem stepSlot_inBlock {slot stage block : ℕ} {event : Option Event}
    (hstep : stepSlot call before slot = some (after, event))
    (hafter : after.pc slot = .inBlock stage block) :
    event = some (.blockStart stage slot block) := by
  cases hpc : before.pc slot with
  | claim current =>
      simp only [stepSlot, hpc] at hstep
      split_ifs at hstep <;> obtain ⟨rfl, rfl⟩ := by simpa using hstep
      · simp [State.setPc] at hafter
      · obtain ⟨rfl, rfl⟩ := by simpa [State.setPc] using hafter
        rfl
  | stampStage current =>
      simp only [stepSlot, hpc, Option.some.injEq, Prod.mk.injEq] at hstep
      obtain ⟨rfl, -⟩ := hstep
      obtain ⟨-, -, henter⟩ | ⟨-, -, henter⟩ | ⟨-, henter⟩ :=
        enterStage_cases call (current + 1) <;>
        simp [State.setPc, henter] at hafter
  | _ =>
      simp only [stepSlot, hpc] at hstep
      repeat' split at hstep
      all_goals
        simp only [Option.some.injEq, Prod.mk.injEq, reduceCtorEq] at hstep
      all_goals
        obtain ⟨rfl, -⟩ := hstep
        simp [State.setPc, State.stamp] at hafter

theorem stepSlot_pc_of_ne {slot other : ℕ} {event : Option Event}
    (hstep : stepSlot call before slot = some (after, event))
    (hne : other ≠ slot) : after.pc other = before.pc other := by
  cases hpc : before.pc slot <;> simp only [stepSlot, hpc] at hstep
  all_goals
    repeat' split at hstep
  all_goals
    simp only [Option.some.injEq, Prod.mk.injEq, reduceCtorEq] at hstep
  all_goals
    obtain ⟨rfl, -⟩ := hstep
    simp [State.setPc, State.stamp, State.fetchAdd, hne]

/-- A slot inside a block has started it. -/
theorem started_of_inBlock
    (run : Reaches (dynamicChain call) (start call) trace state) :
    ∀ slot stage block, state.pc slot = .inBlock stage block →
      ⟨stage, block⟩ ∈ trace.filterMap blocks.opens := by
  apply run.invariant fun trace state => ∀ slot stage block,
    state.pc slot = .inBlock stage block →
      ⟨stage, block⟩ ∈ trace.filterMap blocks.opens
  · intro slot stage block hpc
    obtain ⟨-, -, henter⟩ | ⟨-, -, henter⟩ | ⟨-, henter⟩ :=
      enterStage_cases call 0 <;>
      simp [start, henter] at hpc
  · intro trace before action after event hbefore _ hstep slot stage block hpc
    rw [List.filterMap_append, List.mem_append]
    cases action with
    | slot mover =>
        simp only [dynamicChain] at hstep
        split at hstep
        next =>
          by_cases hsame : slot = mover
          · subst hsame
            right
            rw [stepSlot_inBlock hstep hpc]
            simp [blocks, Event.opens]
          · rw [stepSlot_pc_of_ne hstep hsame] at hpc
            exact .inl (hbefore slot stage block hpc)
        next => simp at hstep
    | join =>
        simp only [dynamicChain] at hstep
        split at hstep
        next =>
          obtain ⟨rfl, -⟩ := by simpa using hstep
          exact .inl (hbefore slot stage block hpc)
        next => simp at hstep
    | requestStop =>
        obtain ⟨rfl, -⟩ := by simpa [dynamicChain] using hstep
        exact .inl (hbefore slot stage block hpc)

/-- A block ends behind its start. -/
theorem matched_of_run
    (run : Reaches (dynamicChain call) (start call) trace state) :
    ∀ earlier event later, trace = earlier ++ event :: later →
      ∀ block, event.closes = some block →
        block ∈ earlier.filterMap blocks.opens := by
  apply run.at_event
    (fun trace state => ∀ slot stage block, state.pc slot =
      .inBlock stage block → ⟨stage, block⟩ ∈ trace.filterMap blocks.opens)
    (fun earlier event => ∀ block, event.closes = some block →
      block ∈ earlier.filterMap blocks.opens) started_of_inBlock
  intro trace before action after event hinside _ hstep block hcloses
  cases event with
  | blockEnd stage slot claimed =>
      obtain rfl := Option.some.inj hcloses
      exact hinside slot stage claimed (step_blockEnd hstep)
  | blockStart | blockThrow | captured => cases hcloses

/-- Blocks start in the stages of the call only. -/
theorem stage_lt_of_opens (hfits : call.Fits)
    (run : Reaches (dynamicChain call) (start call) trace state) {block : Block}
    (hmem : block ∈ trace.filterMap blocks.opens) :
    block.stage < call.nStages := by
  obtain ⟨event, hevent, hopens⟩ := List.mem_filterMap.1 hmem
  obtain ⟨earlier, later, hsplit⟩ := List.append_of_mem hevent
  apply run.at_event (Inv call)
    (fun _ event => event.opens = some block → block.stage < call.nStages)
    (inv_run hfits) ?_ earlier event later hsplit hopens
  intro trace before action after event hinv _ hstep hopens
  cases event with
  | blockStart stage slot claimed =>
      obtain rfl := Option.some.inj hopens
      obtain ⟨hslot, hpc⟩ := step_blockStart hstep
      have hok := (hinv.slots slot hslot).pcOk
      rw [hpc] at hok
      exact hok.1
  | blockEnd | blockThrow | captured => cases hopens

/-- A block is kept away from the blocks of the stages before. -/
theorem separated_of_stage_lt (hfits : call.Fits)
    (run : Reaches (dynamicChain call) (start call) trace state)
    {first second : Block} (hfirst : first.block < call.blockCount)
    (hstage : first.stage < second.stage) :
    Separated blocks trace first second := by
  intro earlier event later hsplit hopens
  cases event with
  | blockStart stage slot claimed =>
      obtain rfl := Option.some.inj hopens
      have hdone := stagesDone_of_run hfits run hsplit
      obtain ⟨peer, -, hended⟩ :=
        hdone first.stage hstage first.block hfirst
      exact List.mem_filterMap.2 ⟨_, hended, rfl⟩
  | blockEnd | blockThrow | captured => cases hopens

end Run

/-! ## The memory behind a call -/

section Memory

variable {call : Call} {trace : List Event} {state : State}

theorem owner_of_opens (event : Event) (block : Block)
    (hopens : blocks.opens event = some block) :
    block.stage = event.stage := by
  cases event <;> simp [blocks, Event.opens] at hopens
  subst hopens
  rfl

theorem opens_of_stage (stage : ℕ) (trace : List Event) :
    (trace.filter fun event => event.stage = stage).filterMap blocks.opens =
      (startedBlocks stage trace).map (Block.mk stage) := by
  rw [startedBlocks, List.filterMap_filter, List.map_filterMap]
  congr 1
  funext event
  cases event with
  | blockStart started slot block =>
      by_cases hstage : started = stage <;>
        simp [blocks, Event.opens, Event.stage, Event.starts, hstage]
  | blockEnd | blockThrow | captured =>
      simp [blocks, Event.opens, Event.starts]

/-- An ended, undisturbed call has run every block of every stage. -/
theorem Inv.stage_complete (hinv : Inv call trace state)
    (hended : state.outcome ≠ none) (hquiet : state.stopRequested = false)
    (hnever : ∀ failure, .blockThrow failure ∉ trace) {stage : ℕ}
    (hstage : stage < call.nStages) :
    startedBlocks stage trace = List.range call.blockCount ∧
      ∀ block < call.blockCount, ∃ slot < call.participants,
        .blockEnd stage slot block ∈ trace := by
  obtain ⟨outcome, houtcome⟩ := Option.ne_none_iff_exists'.1 hended
  obtain ⟨hclear, hpassed⟩ := hinv.passed_of_undisturbed
    (hinv.outcome _ houtcome).1 hquiet hnever
  obtain ⟨fetched, hcounter⟩ := hinv.stages stage
  have htwo := call.two_le
  have hall : call.blockCount ≤ fetched := by
    apply hcounter.exhausted hclear ⟨0, ?_⟩
    rw [mem_pastSlots, hpassed 0 (by omega)]
    exact ⟨by omega, hstage⟩
  constructor
  · rw [hcounter.started, min_eq_right hall]
  · exact hinv.stagesDone hclear (fun peer hpeer => (hpassed peer hpeer).ge)
      stage hstage

theorem opens_of_complete (hfits : call.Fits)
    (run : Reaches (dynamicChain call) (start call) trace state)
    (hended : state.outcome ≠ none) (hquiet : state.stopRequested = false)
    (hnever : ∀ failure, .blockThrow failure ∉ trace) :
    (trace.filterMap blocks.opens).Perm call.blockOrder := by
  have hcomplete : ∀ stage < call.nStages,
      startedBlocks stage trace = List.range call.blockCount :=
    fun _ hstage => ((inv_run hfits run).stage_complete hended hquiet hnever
      hstage).1
  have houtside : ∀ stage, call.nStages ≤ stage →
      (trace.filter fun event => event.stage = stage).filterMap blocks.opens =
        [] := by
    intro stage hstage
    apply List.eq_nil_iff_forall_not_mem.2
    intro block hmem
    rw [← SharedMemory.filter_opens blocks owner_of_opens,
      List.mem_filter] at hmem
    have hlt := stage_lt_of_opens hfits run hmem.1
    have hsame : block.stage = stage := of_decide_eq_true hmem.2
    omega
  apply SharedMemory.perm_of_parties blocks nodup_blockOrder owner_of_opens
  · intro stage
    by_cases hstage : stage < call.nStages
    · rw [opens_of_stage, hcomplete stage hstage]
      apply List.nodup_range.map
      intro left right hsame
      simpa using hsame
    · rw [houtside stage (not_lt.1 hstage)]
      exact List.nodup_nil
  · intro block
    rw [mem_blockOrder]
    by_cases hstage : block.stage < call.nStages
    · rw [opens_of_stage, hcomplete _ hstage]
      obtain ⟨stage, block⟩ := block
      simpa using fun _ => hstage
    · rw [houtside _ (not_lt.1 hstage)]
      simp [hstage]

/-- What the body of a block does, given what an index does in a stage. -/
def Call.loop {Memory : Type*} (call : Call)
    (work : ℕ → ℕ → List (Memory → Memory)) (block : Block) :
    List (Memory → Memory) :=
  (call.indices block.block).flatMap (work block.stage)

/-- The blocks stage by stage are the plain nested loops. -/
theorem flatMap_blockOrder {Memory : Type*}
    (work : ℕ → ℕ → List (Memory → Memory)) :
    call.blockOrder.flatMap (call.loop work) =
      (List.range call.nStages).flatMap fun stage =>
        (List.range call.n).flatMap (work stage) := by
  rw [Call.blockOrder, List.flatMap_assoc]
  congr 1
  funext stage
  rw [List.flatMap_map]
  calc
    (List.range call.blockCount).flatMap
          (fun block => call.loop work ⟨stage, block⟩) =
        ((List.range call.blockCount).flatMap call.indices).flatMap
          (work stage) := by rw [List.flatMap_assoc]; rfl
    _ = (List.range call.n).flatMap (work stage) := by rw [indices_all]

/-- Blocks of one stage do not interfere if their indices do not. -/
theorem commutes_loop {Memory : Type*}
    {work : ℕ → ℕ → List (Memory → Memory)} {stage : ℕ}
    (hwork : ∀ left right, left < right → right < call.n →
      Commutes (work stage right) (work stage left))
    {left right : ℕ} (hlt : left < right) (hright : right < call.blockCount) :
    Commutes (call.loop work ⟨stage, right⟩)
      (call.loop work ⟨stage, left⟩) := by
  intro f hf g hg
  obtain ⟨late, hlate, hf⟩ := List.mem_flatMap.1 hf
  obtain ⟨early, hearly, hg⟩ := List.mem_flatMap.1 hg
  obtain ⟨hfrom, -, hlast⟩ := (mem_indices hright).1 hlate
  obtain ⟨-, hto, -⟩ := (mem_indices (hlt.trans hright)).1 hearly
  have hmeet : (left + 1) * call.chunk ≤ right * call.chunk :=
    Nat.mul_le_mul_right _ hlt
  exact hwork early late (by omega) hlast f hf g hg

/-- If the indices of one stage do not interfere with each other, a call that
ends without a stop request and without a throw leaves the memory behind that
the plain loops over stages and indices make. -/
theorem loopSerial_of_run {Memory : Type*} (call : Call) (hfits : call.Fits)
    (work : ℕ → ℕ → List (Memory → Memory))
    (hwork : ∀ stage < call.nStages, ∀ left right, left < right →
      right < call.n → Commutes (work stage right) (work stage left))
    {memory : Memory} {trace : List Event}
    {state : SharedMemory.State State Block Memory}
    (run : Reaches (withMemory (dynamicChain call) blocks (call.loop work))
      (begin (start call) memory) trace state)
    (hended : state.control.outcome ≠ none)
    (hquiet : state.control.stopRequested = false)
    (hnever : ∀ failure, .blockThrow failure ∉ trace) :
    state.memory = perform ((List.range call.nStages).flatMap fun stage =>
      (List.range call.n).flatMap (work stage)) memory := by
  have hcontrol := SharedMemory.control_of_run run
  rw [← flatMap_blockOrder]
  apply SharedMemory.serial_of_run nodup_blockOrder run
  · refine ⟨opens_of_complete hfits hcontrol hended hquiet hnever, ?_,
      matched_of_run hcontrol⟩
    intro block hmem
    obtain ⟨hstage, hblock⟩ := mem_blockOrder.1 hmem
    obtain ⟨slot, -, hdone⟩ := ((inv_run hfits hcontrol).stage_complete hended
      hquiet hnever hstage).2 block.block hblock
    exact List.mem_filterMap.2 ⟨_, hdone, rfl⟩
  · rw [Call.blockOrder, List.pairwise_flatMap]
    constructor
    · intro stage hstage
      rw [List.pairwise_map]
      apply List.pairwise_lt_range.imp_of_mem
      intro left right _ hright hlt
      exact .inl (commutes_loop (hwork stage (List.mem_range.1 hstage)) hlt
        (List.mem_range.1 hright))
    · apply List.pairwise_lt_range.imp
      intro early late hlt first hfirst second hsecond
      obtain ⟨left, hleft, rfl⟩ := List.mem_map.1 hfirst
      obtain ⟨right, -, rfl⟩ := List.mem_map.1 hsecond
      exact .inr (separated_of_stage_lt hfits hcontrol (List.mem_range.1 hleft)
        hlt)

end Memory

/-- Two slots share three blocks of two stages. -/
def sharedBlocks : Call :=
  { throwingCall with
    barriers := [.global, .global]
    rebalance := by decide
    throws := fun _ _ _ => false }

/-- The first stage adds its indices up, the second doubles for each. -/
def sumAndDouble (stage index : ℕ) : List (ℕ → ℕ) :=
  if stage = 0 then [fun memory => memory + index]
  else [fun memory => 2 * memory]

def sharedSchedule : List Action :=
  List.flatten [List.replicate 4 (.slot 0), List.replicate 4 (.slot 1),
    List.replicate 3 (.slot 0), List.replicate 4 (.slot 1),
    List.replicate 9 (.slot 0), List.replicate 5 (.slot 1),
    List.replicate 3 (.slot 0), List.replicate 4 (.slot 1),
    List.replicate 4 (.slot 0), [.join]]

theorem loopSerial_sharedBlocks :
    ∃ trace state,
      Reaches (withMemory (dynamicChain sharedBlocks) blocks
        (sharedBlocks.loop sumAndDouble)) (begin (start sharedBlocks) 0) trace
          state ∧
        state.memory = 320 := by
  obtain ⟨trace, control, hbase, hcheck⟩ :=
    reaches_of_check (dynamicChain sharedBlocks) (start sharedBlocks)
      sharedSchedule
      (fun trace state => state.outcome.isSome && !state.stopRequested &&
        trace.all fun event => event.opens.isSome || event.closes.isSome)
      (by decide +kernel)
  have hlift : ∃ state, Reaches (withMemory (dynamicChain sharedBlocks) blocks
      (sharedBlocks.loop sumAndDouble)) (begin (start sharedBlocks) 0) trace
        state ∧ state.control = control :=
    SharedMemory.exists_run hbase 0
  obtain ⟨state, run, rfl⟩ := hlift
  simp only [Bool.and_eq_true, Option.isSome_iff_ne_none, Bool.not_eq_true',
    List.all_eq_true] at hcheck
  obtain ⟨⟨hended, hquiet⟩, hnever⟩ := hcheck
  refine ⟨trace, state, run, ?_⟩
  rw [loopSerial_of_run sharedBlocks (by decide +kernel) sumAndDouble ?_ run
    hended hquiet]
  · rfl
  · intro failure hmem
    simpa [Event.opens, Event.closes] using hnever _ hmem
  · intro stage _ left right _ _ f hf g hg memory
    unfold sumAndDouble at hf hg
    split_ifs at hf hg <;> simp only [List.mem_singleton] at hf hg <;>
      subst hf hg
    · exact Nat.add_right_comm _ _ _
    · rfl

end Citor.DynamicChain
