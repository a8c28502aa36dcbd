import Citor.Core.SharedMemory
import Citor.Chain.SameChunkChain

/-!
# A chain call amounts to its serial loops

The bodies of a chain work on shared memory.  A barrier orders bodies of
different slots, a rendezvous all of them and a serial stage those behind
slot 0; without a barrier only the bodies of one slot come in order.  If bodies
that are not ordered do not interfere with each other, a call that nobody stops
and in which nothing throws leaves the memory behind that one loop after
another makes.
-/

namespace Citor.Chain

open Citor.Interleaving
open Citor.DoneSlots
open Citor.SlotRunners
open SharedMemory (Brackets Separated Commutes withMemory begin perform)

/-! ## Bodies as blocks -/

structure Body where
  stage : ℕ
  slot : ℕ
  deriving DecidableEq, Repr

def Event.opens : Event → Option Body
  | .bodyStart stage slot => some ⟨stage, slot⟩
  | _ => none

def Event.closes : Event → Option Body
  | .bodyEnd stage slot => some ⟨stage, slot⟩
  | _ => none

def bodies : Brackets Event Body := ⟨Event.opens, Event.closes⟩

/-- The bodies of one stage, slot by slot. -/
def Call.stageOrder (call : Call) (stage : ℕ) : List Body :=
  ((List.range call.participants).filter (call.runsBody stage)).map
    (Body.mk stage)

/-- The bodies stage by stage. -/
def Call.serialOrder (call : Call) : List Body :=
  (List.range call.nStages).flatMap call.stageOrder

/-- The barriers keep one body in front of another. -/
def Call.Orders (call : Call) (first second : Body) : Prop :=
  first.stage < second.stage ∧
    (first.slot = second.slot ∨ ∃ boundary ≤ second.stage,
      (first.stage < boundary ∧
        (call.barrierBefore boundary).isRendezvous = true) ∨
      (first.stage ≤ boundary ∧ first.slot = 0 ∧
        call.barrierBefore boundary = .producerSerial))

instance (call : Call) (first second : Body) :
    Decidable (call.Orders first second) := by
  unfold Call.Orders
  infer_instance

section Order

variable {call : Call}

theorem mem_serialOrder {body : Body} :
    body ∈ call.serialOrder ↔ body.stage < call.nStages ∧
      body.slot < call.participants ∧
      call.runsBody body.stage body.slot = true := by
  obtain ⟨stage, slot⟩ := body
  simp [Call.serialOrder, Call.stageOrder]

theorem nodup_serialOrder : call.serialOrder.Nodup := by
  rw [Call.serialOrder, List.nodup_flatMap]
  constructor
  · intro stage _
    apply (List.nodup_range.filter _).map
    intro left right hsame
    simpa using hsame
  · apply List.nodup_range.imp
    intro left right hne body hleft hright
    obtain ⟨_, -, rfl⟩ := List.mem_map.1 hleft
    obtain ⟨_, -, hsame⟩ := List.mem_map.1 hright
    exact hne (congrArg Body.stage hsame).symm

theorem pairwise_serialOrder :
    call.serialOrder.Pairwise fun first second =>
      first.stage ≤ second.stage := by
  rw [Call.serialOrder, List.pairwise_flatMap]
  constructor
  · intro stage _
    apply List.pairwise_of_forall_mem_list
    intro first hfirst second hsecond
    obtain ⟨_, -, rfl⟩ := List.mem_map.1 hfirst
    obtain ⟨_, -, rfl⟩ := List.mem_map.1 hsecond
    rfl
  · apply List.pairwise_lt_range.imp
    intro early late hlt first hfirst second hsecond
    obtain ⟨_, -, rfl⟩ := List.mem_map.1 hfirst
    obtain ⟨_, -, rfl⟩ := List.mem_map.1 hsecond
    exact hlt.le

end Order

/-! ## What lies behind an event -/

section Run

variable {call : Call} {trace : List Event} {before after state : State}

/-- A body ends in itself only. -/
theorem step_bodyEnd {action : Action} {stage slot : ℕ}
    (hstep : (chain call).step before action =
      some (after, some (.bodyEnd stage slot))) :
    slot < call.participants ∧ before.pc slot = .inBody stage := by
  cases action with
  | slot mover =>
      simp only [chain] at hstep
      split at hstep
      next hmover =>
        cases hpc : before.pc mover <;> simp only [stepSlot, hpc] at hstep
        all_goals
          repeat' split at hstep
        all_goals
          simp only [Option.some.injEq, Prod.mk.injEq, reduceCtorEq, and_false,
            Event.bodyEnd.injEq] at hstep
        obtain ⟨-, rfl, rfl⟩ := hstep
        exact ⟨hmover, hpc⟩
      next => simp at hstep
  | join =>
      simp only [chain] at hstep
      split at hstep <;> simp at hstep
  | requestStop => simp [chain] at hstep

theorem matched_of_run (run : Reaches (chain call) (start call) trace state) :
    ∀ earlier event later, trace = earlier ++ event :: later →
      ∀ body, event.closes = some body →
        body ∈ earlier.filterMap Event.opens := by
  apply run.at_event (Inv call) (fun earlier event => ∀ body,
    event.closes = some body → body ∈ earlier.filterMap Event.opens) inv_run
  intro trace before action after event hinv _ hstep body hcloses
  cases event with
  | bodyEnd stage slot =>
      obtain ⟨hslot, hpc⟩ := step_bodyEnd hstep
      obtain ⟨current, hcurrent, hmem⟩ := (hinv.slots slot hslot).mem_iff
      simp only [hpc, CurrentEvents] at hcurrent
      have hstarted : Event.bodyStart stage slot ∈ trace := by
        rw [hmem _ rfl, hcurrent]
        simp
      exact List.mem_filterMap.2 ⟨_, hstarted, hcloses⟩
  | bodyStart | bodyThrow | captured => cases hcloses

/-- What the barriers keep in front of a body has ended when it starts. -/
theorem separated_of_orders
    (run : Reaches (chain call) (start call) trace state) {first second : Body}
    (hfirst : first ∈ call.serialOrder) (horders : call.Orders first second) :
    Separated bodies trace first second := by
  obtain ⟨-, hslot, hruns⟩ := mem_serialOrder.1 hfirst
  obtain ⟨hstage, hkept⟩ := horders
  intro earlier event later hsplit hopens
  have hevent : event = .bodyStart second.stage second.slot := by
    cases event <;> simp [bodies, Event.opens] at hopens
    subst hopens
    rfl
  have hended : Event.bodyEnd first.stage first.slot ∈ earlier := by
    apply bodyStart_rule (fun earlier stage slot => stage = second.stage →
      slot = second.slot → Event.bodyEnd first.stage first.slot ∈ earlier) ?_
      run (hevent ▸ hsplit) rfl rfl
    rintro earlier before stage slot hinv hrunner hpc - rfl rfl
    have hcleared : (before.pc second.slot).cleared = second.stage + 1 := by
      rw [hpc]
      rfl
    have hended := fun hpassed =>
      (hinv.slots first.slot hslot).bodyEnd_mem hpassed hruns
    cases hkept with
    | inl hsame =>
        apply hended
        rw [hsame, hpc]
        exact hstage
    | inr hboundary =>
        obtain ⟨boundary, hle, hkept⟩ := hboundary
        have hclear := (hinv.slots second.slot hrunner).boundary boundary
          (by omega)
        cases hkept with
        | inl hkept =>
            exact hended (hkept.1.trans_le (hclear.1 hkept.2 _ hslot))
        | inr hkept =>
            obtain ⟨hle, hzero, hserial⟩ := hkept
            by_cases hsame : second.slot = 0
            · apply hended
              rw [hzero, ← hsame, hpc]
              exact hstage
            · have hpassed := hclear.2 hserial hsame
              apply hended
              rw [hzero]
              omega
  exact List.mem_filterMap.2 ⟨_, hended, rfl⟩

end Run

/-! ## The memory behind a call -/

section Memory

variable {call : Call} {trace : List Event} {state : State}

theorem owner_of_opens (event : Event) (body : Body)
    (hopens : bodies.opens event = some body) : body.slot = event.slot := by
  cases event <;> simp [bodies, Event.opens] at hopens
  subst hopens
  rfl

theorem opens_passedEvents (slot passed : ℕ) :
    (passedEvents call slot passed).filterMap bodies.opens =
      ((List.range passed).filter (call.runsBody · slot)).map (⟨·, slot⟩) := by
  induction passed with
  | zero => rfl
  | succ passed ih =>
      rw [passedEvents, List.filterMap_append, ih, List.range_succ,
        List.filter_append, List.map_append]
      congr 1
      by_cases hruns : call.runsBody passed slot = true <;>
        simp [stageEvents, hruns, bodies, Event.opens, List.filterMap_cons]

theorem Inv.opens_of_complete (hinv : Inv call trace state)
    (hended : state.outcome ≠ none) (hquiet : state.stopRequested = false)
    (hnever : ∀ stage slot, .bodyThrow stage slot ∉ trace) :
    (trace.filterMap bodies.opens).Perm call.serialOrder := by
  obtain ⟨outcome, houtcome⟩ := Option.ne_none_iff_exists'.1 hended
  have hopens : ∀ slot < call.participants,
      (trace.filter fun event => event.slot = slot).filterMap bodies.opens =
        ((List.range call.nStages).filter (call.runsBody · slot)).map
          (⟨·, slot⟩) := by
    intro slot hslot
    rw [hinv.count_of_undisturbed (hinv.outcome _ houtcome).1 hquiet hnever
      hslot, opens_passedEvents]
  have houtside : ∀ slot, call.participants ≤ slot →
      trace.filter (fun event => event.slot = slot) = [] := by
    intro slot hslot
    apply List.filter_eq_nil_iff.2
    intro event hmem hsame
    have hbound := hinv.bounded event hmem
    have hslot : event.slot = slot := of_decide_eq_true hsame
    omega
  apply SharedMemory.perm_of_parties bodies nodup_serialOrder owner_of_opens
  · intro slot
    by_cases hslot : slot < call.participants
    · rw [hopens slot hslot]
      apply (List.nodup_range.filter _).map
      intro left right hsame
      simpa using hsame
    · rw [houtside slot (not_lt.1 hslot)]
      exact List.nodup_nil
  · intro body
    rw [mem_serialOrder]
    by_cases hslot : body.slot < call.participants
    · rw [hopens _ hslot]
      obtain ⟨stage, slot⟩ := body
      simpa using fun _ _ => hslot
    · rw [houtside _ (not_lt.1 hslot)]
      simp [hslot]

theorem Inv.closed_of_complete (hinv : Inv call trace state)
    (hended : state.outcome ≠ none) (hquiet : state.stopRequested = false)
    (hnever : ∀ stage slot, .bodyThrow stage slot ∉ trace) {body : Body}
    (hmem : body ∈ call.serialOrder) :
    body ∈ trace.filterMap bodies.closes := by
  obtain ⟨outcome, houtcome⟩ := Option.ne_none_iff_exists'.1 hended
  obtain ⟨hstage, hslot, hruns⟩ := mem_serialOrder.1 hmem
  have hpart := hinv.count_of_undisturbed (hinv.outcome _ houtcome).1 hquiet
    hnever hslot
  have hended : Event.bodyEnd body.stage body.slot ∈
      trace.filter fun event => event.slot = body.slot := by
    rw [hpart]
    exact bodyEnd_mem_passedEvents.2 ⟨hstage, hruns⟩
  exact List.mem_filterMap.2 ⟨_, List.mem_of_mem_filter hended, rfl⟩

/-- If bodies that the barriers do not order do not interfere with each other,
a call that ends without a stop request and without a throw leaves the memory
behind that one loop after another makes. -/
theorem stageSerial_of_run {Memory : Type*} (call : Call)
    (work : Body → List (Memory → Memory))
    (hwork : ∀ first ∈ call.serialOrder, ∀ second ∈ call.serialOrder,
      first ≠ second → ¬ call.Orders first second →
      ¬ call.Orders second first → Commutes (work second) (work first))
    {memory : Memory} {trace : List Event}
    {state : SharedMemory.State State Body Memory}
    (run : Reaches (withMemory (chain call) bodies work)
      (begin (start call) memory) trace state)
    (hended : state.control.outcome ≠ none)
    (hquiet : state.control.stopRequested = false)
    (hnever : ∀ stage slot, .bodyThrow stage slot ∉ trace) :
    state.memory = perform (call.serialOrder.flatMap work) memory := by
  have hcontrol := SharedMemory.control_of_run run
  have hinv := inv_run hcontrol
  apply SharedMemory.serial_of_run nodup_serialOrder run
  · exact ⟨hinv.opens_of_complete hended hquiet hnever,
      fun _ hmem => hinv.closed_of_complete hended hquiet hnever hmem,
      matched_of_run hcontrol⟩
  · apply (nodup_serialOrder.and pairwise_serialOrder).imp_of_mem
    intro first second hfirst hsecond ⟨hne, hle⟩
    by_cases horders : call.Orders first second
    · exact .inr (separated_of_orders hcontrol hfirst horders)
    · left
      apply hwork first hfirst second hsecond hne horders
      intro hbehind
      exact absurd hbehind.1 (not_lt.2 hle)

end Memory

/-- A loop in parallel, a serial stage and a loop behind a rendezvous. -/
def threeStages : Call where
  participants := 2
  two_le := Nat.le_refl 2
  barriers := [.producerSerial, .global, .none]
  throws := fun _ _ => false
  epochs := .fresh

/-- The first loop adds, slot 0 doubles alone, the last loop adds again. -/
def addDoubleAdd (body : Body) : List (ℕ × ℕ → ℕ × ℕ) :=
  match body.stage with
  | 0 => [fun (left, right) =>
      if body.slot = 0 then (left + 1, right) else (left, right + 1)]
  | 1 => [fun (left, right) => (2 * left, right)]
  | _ => [fun (left, right) => (left + right, right)]

/-- The serial stage overlaps the first loop on slot 1. -/
def serialOverlap : List Action :=
  List.flatten [List.replicate 2 (.slot 1), List.replicate 6 (.slot 0),
    List.replicate 2 (.slot 1), List.replicate 2 (.slot 0),
    List.replicate 4 (.slot 1), List.replicate 4 (.slot 0),
    List.replicate 4 (.slot 1), [.join]]

theorem stageSerial_threeStages :
    ∃ trace state, Reaches (withMemory (chain threeStages) bodies addDoubleAdd)
      (begin (start threeStages) (0, 0)) trace state ∧ state.memory = (4, 1) := by
  obtain ⟨trace, control, hbase, hcheck⟩ :=
    reaches_of_check (chain threeStages) (start threeStages) serialOverlap
      (fun trace state => state.outcome.isSome && !state.stopRequested &&
        trace.all fun event => event.opens.isSome || event.closes.isSome)
      (by decide +kernel)
  have hlift : ∃ state, Reaches
      (withMemory (chain threeStages) bodies addDoubleAdd)
      (begin (start threeStages) (0, 0)) trace state ∧
        state.control = control :=
    SharedMemory.exists_run hbase (0, 0)
  obtain ⟨state, run, rfl⟩ := hlift
  simp only [Bool.and_eq_true, Option.isSome_iff_ne_none, Bool.not_eq_true',
    List.all_eq_true] at hcheck
  obtain ⟨⟨hended, hquiet⟩, hnever⟩ := hcheck
  refine ⟨trace, state, run, ?_⟩
  rw [stageSerial_of_run threeStages addDoubleAdd ?_ run hended hquiet]
  · rfl
  · intro stage slot hmem
    simpa [Event.opens, Event.closes] using hnever _ hmem
  · have hpairs : ∀ first ∈ threeStages.serialOrder,
        ∀ second ∈ threeStages.serialOrder, first ≠ second →
        ¬ threeStages.Orders first second →
        ¬ threeStages.Orders second first →
        (first, second) ∈ [((⟨0, 0⟩ : Body), (⟨0, 1⟩ : Body)),
          (⟨0, 1⟩, ⟨0, 0⟩), (⟨0, 1⟩, ⟨1, 0⟩), (⟨1, 0⟩, ⟨0, 1⟩),
          (⟨2, 0⟩, ⟨2, 1⟩), (⟨2, 1⟩, ⟨2, 0⟩)] := by
      decide +kernel
    intro first hfirst second hsecond hne hfront hback f hf g hg memory
    have hpair := hpairs first hfirst second hsecond hne hfront hback
    simp only [List.mem_cons, Prod.mk.injEq, List.not_mem_nil, or_false]
      at hpair
    obtain ⟨left, right⟩ := memory
    obtain ⟨rfl, rfl⟩ | ⟨rfl, rfl⟩ | ⟨rfl, rfl⟩ | ⟨rfl, rfl⟩ | ⟨rfl, rfl⟩ |
        ⟨rfl, rfl⟩ := hpair <;>
      simp only [addDoubleAdd, List.mem_singleton] at hf hg <;>
      subst hf hg <;> simp

end Citor.Chain
