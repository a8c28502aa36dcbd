import Citor.Scan.ScanSteps

/-!
# What a scan call guarantees

Seeds, total and completion of a `parallelScan` in which no callback throws,
for the flat and the hierarchical engine alike.
-/

namespace Citor.Scan

open Citor.Interleaving
open Citor.DoneSlots

variable {T : Type*}

/-! ## Histories -/

section Histories

variable {call : Call T} {slot : ℕ} {pc : Pc T} {stop : Bool}
variable {events : List (Event T)}

/-- All a slot does: one first pass, then one second pass from the product of
the partials below it. -/
def passes (call : Call T) (slot : ℕ) : List (Event T) :=
  pass1Events slot ++ [.pass2Start slot (product call 0 slot), .pass2End slot]

theorem History.isPrefix (hpast : History call stop slot pc events) :
    events <+: passes call slot := by
  have hnone : ([] : List (Event T)) <+: passes call slot := ⟨_, rfl⟩
  have hbody : [.pass1Start slot] <+: passes call slot := ⟨_, rfl⟩
  have hfirst : pass1Events slot <+: passes call slot := ⟨_, rfl⟩
  have hseeded : pass1Events slot ++ [.pass2Start slot (product call 0 slot)] <+:
      passes call slot := ⟨_, rfl⟩
  cases pc with
  | pass1Enter => exact hpast ▸ hnone
  | pass1Body => exact hpast ▸ hbody
  | repollToken | storeCancelled => exact hpast.1 ▸ hfirst
  | pass2Body => exact hpast ▸ hseeded
  | stampPass2 | left =>
      rcases hpast with ⟨hevents, -⟩ | hevents
      · exact hevents ▸ hfirst
      · exact hevents ▸ List.prefix_rfl
  | _ => exact hpast ▸ hfirst

theorem History.pass1Events_isPrefix (hpast : History call stop slot pc events)
    (hlow : 2 ≤ pc.level) : pass1Events slot <+: events := by
  cases pc with
  | pass1Enter | pass1Body => simp [Pc.level] at hlow
  | repollToken | storeCancelled => exact hpast.1 ▸ List.prefix_rfl
  | pass2Body => exact hpast ▸ ⟨_, rfl⟩
  | stampPass2 | left =>
      rcases hpast with ⟨hevents, -⟩ | hevents
      · exact hevents ▸ List.prefix_rfl
      · exact hevents ▸ ⟨_, rfl⟩
  | _ => exact hpast ▸ List.prefix_rfl

end Histories

section Runs

variable {call : Call T} {trace : List (Event T)} {state : State T}
variable {slot : ℕ}

/-- Once slot 0 has passed the clusters, every slot has stamped its first
pass. -/
theorem Ordered.all_stamped {level : ℕ → ℕ} (hordered : Ordered call level)
    (hpast : 8 ≤ level 0) : ∀ peer < call.participants, 3 ≤ level peer := by
  intro peer hpeer
  have hleader := hordered.clusters hpast (call.cluster peer)
    (call.cluster_lt hpeer)
  apply hordered.group (call.leader peer) (call.leader_lt hpeer)
    (call.leader_leader hpeer) (le_trans (by omega) hleader) peer
    (call.leader_le hpeer)
  rw [call.groupEnd_leader hpeer]
  exact call.lt_groupEnd hpeer

theorem Inv.pass1End_mem (hinv : Inv call trace state)
    (hslot : slot < call.participants) (hlow : 2 ≤ state.level slot) :
    .pass1End slot ∈ trace := by
  have hpre := (hinv.history slot hslot).pass1Events_isPrefix hlow
  have hmem := hpre.subset
    (show .pass1End slot ∈ pass1Events slot by simp [pass1Events])
  exact (List.mem_filter.mp hmem).1

/-- Only a slot at its gate starts a second pass. -/
theorem step_pass2Start {before after : State T} {action : Action}
    {initial : T}
    (hstep : (scan call).step before action =
      some (after, some (.pass2Start slot initial))) :
    slot < call.participants ∧ before.pc slot = .pollToken := by
  cases action with
  | slot mover =>
      simp only [scan] at hstep
      split at hstep
      next hmover =>
        cases hpc : before.pc mover <;> simp only [stepSlot, hpc] at hstep
        case pollToken =>
          split at hstep
          · simp at hstep
          · simp only [Option.some.injEq, Prod.mk.injEq,
              Event.pass2Start.injEq] at hstep
            obtain ⟨-, rfl, -⟩ := hstep
            exact ⟨hmover, hpc⟩
        all_goals
          repeat' split at hstep
        all_goals simp at hstep
      next => simp at hstep
  | join =>
      simp only [scan] at hstep
      split at hstep <;> simp at hstep
  | requestStop => simp [scan] at hstep

/-- A second pass starts behind every first pass. -/
theorem pass1End_of_pass2Start {scratch : ℕ → T} {initialTotal : T}
    (hthrows : ∀ site, call.throws site = false) (hmonoid : call.IsMonoid)
    (run : Reaches (scan call) (start call scratch initialTotal) trace state)
    {earlier later : List (Event T)} {initial : T}
    (htrace : trace = earlier ++ .pass2Start slot initial :: later)
    {peer : ℕ} (hpeer : peer < call.participants) :
    .pass1End peer ∈ earlier := by
  refine run.at_event (Inv call)
    (fun earlier event => ∀ slot initial, event = .pass2Start slot initial →
      .pass1End peer ∈ earlier)
    (fun run => inv_run hthrows hmonoid run) ?_ earlier _ later htrace slot
    initial rfl
  intro earlier before action after event hinv _ hstep slot initial hevent
  rw [hevent] at hstep
  obtain ⟨hslot, hpc⟩ := step_pass2Start hstep
  have hgate : before.level slot = 13 := level_of_pc hpc
  have hpublished := hinv.control.ordered.published slot hslot (by omega)
  have hstamped := hinv.control.ordered.all_stamped (by omega) peer hpeer
  exact hinv.pass1End_mem hpeer (by omega)

/-! ## Progress -/

/-- The waits of the wrapper. -/
def Pc.waits : Pc T → Bool
  | .awaitPass1 _ | .awaitCluster _ | .awaitPrefixes | .awaitCombined
  | .awaitLeft _ => true
  | _ => false

theorem stepSlot_of_not_waits (call : Call T)
    (hwaits : (state.pc slot).waits = false)
    (hrunning : (state.pc slot).hasLeft = false) :
    ∃ after event, stepSlot call state slot = some (after, event) := by
  cases hpc : state.pc slot <;> rw [hpc] at hwaits hrunning <;>
    simp only [Pc.waits, Pc.hasLeft, Bool.true_eq_false] at hwaits hrunning
  all_goals
    simp only [stepSlot, hpc]
    try split
  all_goals exact ⟨_, _, rfl⟩

/-- A slot that cannot move waits behind its first pass or has left. -/
theorem Inv.idle_level (hinv : Inv call trace state)
    (hslot : slot < call.participants)
    (hidle : stepSlot call state slot = none) :
    (state.pc slot).waits = true ∧ 3 ≤ state.level slot ∨
      (state.pc slot).hasLeft = true ∧ state.level slot = 17 := by
  have hshape := hinv.control.shape slot hslot
  have hblocked : (state.pc slot).waits = true ∨
      (state.pc slot).hasLeft = true := by
    by_contra hfree
    rw [not_or, Bool.not_eq_true, Bool.not_eq_true] at hfree
    obtain ⟨after, event, hstep⟩ := 
      stepSlot_of_not_waits call hfree.1 hfree.2
    simp [hidle] at hstep
  unfold State.level
  cases hpc : state.pc slot <;> rw [hpc] at hshape hblocked <;>
    simp_all [Pc.waits, Pc.hasLeft, Pc.level, Shape]

/-- With every first pass stamped no leader is held up by its members. -/
theorem Inv.idle_past_members (hinv : Inv call trace state)
    (hidle : ∀ slot < call.participants, stepSlot call state slot = none)
    (hslot : slot < call.participants) : 7 ≤ state.level slot := by
  have hstamped : ∀ peer < call.participants,
      call.epochs.epochBase + 1 ≤ state.done peer := by
    intro peer hpeer
    apply hinv.stamps.stamped peer hpeer
    rcases hinv.idle_level hpeer (hidle peer hpeer) with ⟨-, h⟩ | ⟨-, h⟩ <;>
      omega
  have hnone := hidle slot hslot
  rcases hinv.idle_level hslot hnone with ⟨hwaits, -⟩ | ⟨-, hlast⟩
  · unfold State.level
    cases hpc : state.pc slot with
    | awaitPass1 member =>
        simp only [stepSlot, hpc] at hnone
        split at hnone
        next hmember =>
          have := hstamped member (hmember.trans_le (call.groupEnd_le hslot))
          rw [if_neg (by omega)] at hnone
          simp at hnone
        next => simp at hnone
    | awaitLeft other =>
        have hshape := hinv.control.shape slot hslot
        simp [hpc, Shape] at hshape
    | awaitCluster | awaitPrefixes | awaitCombined => simp [Pc.level]
    | _ => simp [hpc, Pc.waits] at hwaits
  · omega

/-- Then slot 0 is not held up by the other leaders. -/
theorem Inv.idle_zero_left (hinv : Inv call trace state)
    (hidle : ∀ slot < call.participants, stepSlot call state slot = none) :
    state.level 0 = 17 := by
  have htwo := call.two_le
  have hzero : 0 < call.participants := by omega
  have hshape := hinv.control.shape 0 hzero
  have hnone := hidle 0 hzero
  have hpast := hinv.idle_past_members hidle hzero
  rcases hinv.idle_level hzero hnone with ⟨hwaits, -⟩ | ⟨-, hlast⟩
  · cases hpc : state.pc 0 with
    | awaitCluster cluster =>
        rw [hpc] at hshape
        obtain ⟨hhier, -, -, hcluster⟩ := hshape
        have hleader := call.clusterFirst_lt_participants hcluster
        have hstamp := hinv.stamps.cluster hhier _ hleader
          (call.leader_clusterFirst hcluster)
        rw [call.cluster_clusterFirst hcluster] at hstamp
        have hseven := hinv.idle_past_members hidle hleader
        have hone : ¬ state.clusterStamp cluster < 1 := by
          rw [hstamp, stampAt, if_pos hseven]
          split <;> decide
        simp [stepSlot, hpc, hone] at hnone
    | awaitPass1 member =>
        rw [level_of_pc hpc] at hpast
        simp [Pc.level] at hpast
    | awaitPrefixes => simp [hpc, Shape] at hshape
    | awaitCombined => simp [hpc, Shape, call.leader_zero] at hshape
    | awaitLeft other => simp [hpc, Shape] at hshape
    | _ => simp [hpc, Pc.waits] at hwaits
  · exact hlast

/-- Then no leader waits for the prefixes. -/
theorem Inv.idle_leader_left (hinv : Inv call trace state)
    (hidle : ∀ slot < call.participants, stepSlot call state slot = none)
    (hslot : slot < call.participants) (howns : call.leader slot = slot) :
    (state.pc slot).hasLeft = true := by
  have hzero := hinv.idle_zero_left hidle
  have hnone := hidle slot hslot
  have hshape := hinv.control.shape slot hslot
  have hpast := hinv.idle_past_members hidle hslot
  rcases hinv.idle_level hslot hnone with ⟨hwaits, -⟩ | ⟨hleft, -⟩
  · cases hpc : state.pc slot with
    | awaitPrefixes =>
        have hpublished := hinv.stamps.published.mpr (by omega)
        simp [stepSlot, hpc, hpublished] at hnone
    | awaitCluster cluster =>
        rw [hpc] at hshape
        obtain ⟨-, rfl, -, -⟩ := hshape
        rw [level_of_pc hpc] at hzero
        simp [Pc.level] at hzero
    | awaitPass1 member =>
        rw [level_of_pc hpc] at hpast
        simp [Pc.level] at hpast
    | awaitCombined => simp [hpc, Shape, howns] at hshape
    | awaitLeft other => simp [hpc, Shape] at hshape
    | _ => simp [hpc, Pc.waits] at hwaits
  · exact hleft

/-- No reachable state is stuck: as long as a slot has not left, some slot can
move. -/
theorem Inv.exists_slot_step (hinv : Inv call trace state)
    (hrunning : state.allLeft call = false) :
    ∃ slot < call.participants, ∃ after event,
      stepSlot call state slot = some (after, event) := by
  by_contra hstuck
  have hidle : ∀ slot < call.participants,
      stepSlot call state slot = none := by
    intro slot hslot
    cases hstep : stepSlot call state slot with
    | none => rfl
    | some next => exact absurd ⟨slot, hslot, _, _, hstep⟩ hstuck
  simp only [State.allLeft, List.all_eq_false, List.mem_range,
    Bool.not_eq_true] at hrunning
  obtain ⟨slot, hslot, hstays⟩ := hrunning
  have hnone := hidle slot hslot
  have hshape := hinv.control.shape slot hslot
  have hzero := hinv.idle_zero_left hidle
  have hpast := hinv.idle_past_members hidle hslot
  have hleads : call.leader slot ≠ slot := fun howns => by
    simp [hinv.idle_leader_left hidle hslot howns] at hstays
  rcases hinv.idle_level hslot hnone with ⟨hwaits, -⟩ | ⟨hleft, -⟩
  · cases hpc : state.pc slot with
    | awaitCombined =>
        rw [hpc] at hshape
        have hleader := hinv.idle_leader_left hidle (call.leader_lt hslot)
          (call.leader_leader hslot)
        have hlevel : state.level (call.leader slot) = 17 := by
          unfold State.level
          cases hpcLeader : state.pc (call.leader slot) <;>
            simp_all [Pc.hasLeft, Pc.level]
        have hstamp := hinv.stamps.cluster hshape.1 _ (call.leader_lt hslot)
          (call.leader_leader hslot)
        rw [call.cluster_leader hslot, hlevel] at hstamp
        simp [stepSlot, hpc, hstamp, stampAt] at hnone
    | awaitPrefixes =>
        have hpublished := hinv.stamps.published.mpr (by omega)
        simp [stepSlot, hpc, hpublished] at hnone
    | awaitCluster cluster =>
        rw [hpc] at hshape
        obtain ⟨-, rfl, -, -⟩ := hshape
        exact hleads call.leader_zero
    | awaitPass1 member =>
        rw [hpc] at hshape
        exact hleads hshape.1
    | awaitLeft other => simp [hpc, Shape] at hshape
    | _ => simp [hpc, Pc.waits] at hwaits
  · simp [hleft] at hstays

theorem Inv.exists_step (hinv : Inv call trace state)
    (hrunning : state.outcome = none) :
    ∃ action after event, action ≠ .requestStop ∧
      (scan call).step state action = some (after, event) := by
  cases hall : state.allLeft call with
  | true =>
      exact ⟨.join, _, _, by simp, if_pos ⟨by simp [hrunning], hall⟩⟩
  | false =>
      obtain ⟨slot, hslot, after, event, hstep⟩ := hinv.exists_slot_step hall
      exact ⟨.slot slot, after, event, by simp, by simp [scan, hslot, hstep]⟩

/-! ## Completion -/

/-- The steps a slot still has in front of it, at most. -/
def Pc.remaining (call : Call T) (slot : ℕ) : Pc T → ℕ
  | .pass1Enter => 3 * call.participants + 2 * call.numClusters + 24
  | .pass1Body => 3 * call.participants + 2 * call.numClusters + 23
  | .stampPass1 => 3 * call.participants + 2 * call.numClusters + 22
  | .awaitPass1 member =>
      2 * call.participants + 2 * call.numClusters + 21 +
        (call.groupEnd slot - member)
  | .loadFailed => 2 * call.participants + 2 * call.numClusters + 20
  | .reduce member _ =>
      call.participants + 2 * call.numClusters + 19 +
        (call.groupEnd slot - member)
  | .publishTotal _ => call.participants + 2 * call.numClusters + 16
  | .awaitCluster cluster =>
      call.participants + call.numClusters + 15 +
        (call.numClusters - cluster)
  | .crossReduce cluster _ =>
      call.participants + 14 + (call.numClusters - cluster)
  | .publishPrefixes _ | .awaitPrefixes => call.participants + 11
  | .combine member _ => 10 + (call.groupEnd slot - member)
  | .stampCluster | .awaitCombined => 7
  | .loadCancelled => 6
  | .pollToken => 5
  | .pass2Body => 4
  | .repollToken => 3
  | .storeCancelled => 2
  | .stampPass2 => 1
  | .capture _ next => next.remaining call slot + 2
  | .arm next => next.remaining call slot + 1
  | .stampFailed => call.participants + 4
  | .publishFailed => call.participants + 3
  | .awaitLeft other => 1 + (call.participants - other)
  | .left => 0

def State.remaining (call : Call T) (state : State T) : ℕ :=
  (if state.outcome.isNone then 1 else 0) +
    ∑ slot ∈ Finset.range call.participants,
      (state.pc slot).remaining call slot

/-- A step of a slot moves nothing but its own program counter forward. -/
theorem stepSlot_frame {before after : State T} {event : Option (Event T)}
    (hstep : stepSlot call before slot = some (after, event)) :
    (∀ other ≠ slot, after.pc other = before.pc other) ∧
      after.outcome = before.outcome := by
  cases hpc : before.pc slot <;> simp only [stepSlot, hpc] at hstep
  all_goals
    repeat' split at hstep
  all_goals
    first
      | (simp only [reduceCtorEq] at hstep)
      | (simp only [Option.some.injEq, Prod.mk.injEq] at hstep
         obtain ⟨rfl, rfl⟩ := hstep
         exact ⟨fun other hother => by
           simp [State.setPc, State.stamp, State.setPartial,
             State.stampClusterOf, hother], rfl⟩)

theorem stepSlot_remaining {before after : State T}
    {event : Option (Event T)} (hslot : slot < call.participants)
    (hstep : stepSlot call before slot = some (after, event)) :
    (after.pc slot).remaining call slot <
      (before.pc slot).remaining call slot := by
  have hend := call.groupEnd_le hslot
  have hown := call.lt_groupEnd hslot
  have hclusters := call.numClusters_pos
  cases hpc : before.pc slot <;> simp only [stepSlot, hpc] at hstep
  all_goals
    repeat' split at hstep
  all_goals
    first
      | (simp only [reduceCtorEq] at hstep)
      | (simp only [Option.some.injEq, Prod.mk.injEq] at hstep
         obtain ⟨rfl, rfl⟩ := hstep
         simp only [State.setPc, State.stamp, State.setPartial,
           State.stampClusterOf, Function.update_self, afterPass1, afterAwait,
           afterReduce, nextReduce, nextCluster, nextCross, nextCombine,
           afterPublished, nextMember]
         repeat' split
         all_goals (simp only [Pc.remaining]; omega))

/-- Every step but a stop request leaves the call with less to do. -/
theorem remaining_lt {before after : State T} {action : Action}
    {event : Option (Event T)} (haction : action ≠ .requestStop)
    (hstep : (scan call).step before action = some (after, event)) :
    after.remaining call < before.remaining call := by
  cases action with
  | slot slot =>
      simp only [scan] at hstep
      split at hstep
      next hslot =>
        obtain ⟨hothers, houtcome⟩ := stepSlot_frame hstep
        have hless := stepSlot_remaining hslot hstep
        have hsum : ∑ other ∈ Finset.range call.participants,
              (after.pc other).remaining call other <
            ∑ other ∈ Finset.range call.participants,
              (before.pc other).remaining call other := by
          apply Finset.sum_lt_sum
          · intro other _
            by_cases hsame : other = slot
            · rw [hsame]
              exact hless.le
            · rw [hothers other hsame]
          · exact ⟨slot, Finset.mem_range.mpr hslot, hless⟩
        unfold State.remaining
        rw [houtcome]
        omega
      next => simp at hstep
  | join =>
      simp only [scan] at hstep
      split at hstep
      next hready =>
        obtain ⟨rfl, rfl⟩ := by simpa using hstep
        simp [State.remaining, hready.1]
      next => simp at hstep
  | requestStop => exact absurd rfl haction

end Runs

/-! ## What a caller sees -/

/-- One run of a scan call: the passes of every slot, their seeds, the total
and the way to the end. -/
structure ScanCorrect (call : Call T) (trace : List (Event T))
    (state : State T) : Prop where
  inRange : ∀ event ∈ trace, ∃ slot < call.participants,
    event.passOf = some slot
  /-- A slot does nothing but one first and one second pass, in this order. -/
  atMostOnce : ∀ slot < call.participants,
    trace.filter (fun event => event.passOf = some slot) <+: passes call slot
  pass1Once : state.outcome ≠ none → ∀ slot < call.participants,
    pass1Events slot <+: trace.filter (fun event => event.passOf = some slot)
  pass2Once : state.outcome ≠ none → state.stopRequested = false →
    ∀ slot < call.participants,
      trace.filter (fun event => event.passOf = some slot) = passes call slot
  /-- No second pass starts before every first pass has returned. -/
  pass1First : ∀ earlier later slot initial,
    trace = earlier ++ .pass2Start slot initial :: later →
      ∀ peer < call.participants, .pass1End peer ∈ earlier
  /-- The seed of a slot is the product of the partials below it. -/
  seed : ∀ slot initial, .pass2Start slot initial ∈ trace →
    initial = product call 0 slot
  total : ∀ outcome, state.outcome = some outcome →
    outcome = .ok (product call 0 call.participants)
  /-- The other engine, over any layout, gives the same seeds and total. -/
  engines : ∀ engine scratch initialTotal otherTrace otherState,
    Reaches (scan { call with engine := engine })
        (start { call with engine := engine } scratch initialTotal)
        otherTrace otherState →
      (∀ slot initial otherInitial, .pass2Start slot initial ∈ trace →
          .pass2Start slot otherInitial ∈ otherTrace →
            initial = otherInitial) ∧
        ∀ outcome otherOutcome, state.outcome = some outcome →
          otherState.outcome = some otherOutcome → outcome = otherOutcome
  enabled : state.outcome = none → ∃ action after event,
    action ≠ .requestStop ∧
      (scan call).step state action = some (after, event)
  shorter : ∀ action after event, action ≠ .requestStop →
    (scan call).step state action = some (after, event) →
      after.remaining call < state.remaining call
  completes : ∃ rest final,
    Run (scan call) (fun _ action => action ≠ .requestStop) state rest final ∧
      final.outcome = some (.ok (product call 0 call.participants))

section Caller

variable {call : Call T} {trace : List (Event T)} {state : State T}

theorem Inv.hasLeft_of_outcome (hinv : Inv call trace state)
    (hended : state.outcome ≠ none) {slot : ℕ}
    (hslot : slot < call.participants) : state.pc slot = .left := by
  obtain ⟨outcome, houtcome⟩ := Option.ne_none_iff_exists'.mp hended
  have hall := (hinv.outcome outcome houtcome).1
  have hleft : (state.pc slot).hasLeft = true := by
    simp only [State.allLeft, List.all_eq_true, List.mem_range] at hall
    exact hall slot hslot
  cases hpc : state.pc slot <;> simp_all [Pc.hasLeft]

theorem Inv.seed_eq (hinv : Inv call trace state) {slot : ℕ} {initial : T}
    (hmem : .pass2Start slot initial ∈ trace) :
    initial = product call 0 slot := by
  obtain ⟨owner, howner, hpass⟩ := hinv.bounded _ hmem
  obtain rfl : slot = owner := by simpa [Event.passOf] using hpass
  have hpasses := (hinv.history slot howner).isPrefix.subset
    (List.mem_filter.mpr ⟨hmem, by simp [Event.passOf]⟩)
  simpa [passes, pass1Events] using hpasses

theorem Inv.outcome_eq (hinv : Inv call trace state)
    {outcome : Except Site T} (houtcome : state.outcome = some outcome) :
    outcome = .ok (product call 0 call.participants) := by
  have htwo := call.two_le
  have hzero : state.level 0 = 17 :=
    level_of_pc (hinv.hasLeft_of_outcome (by simp [houtcome]) (by omega))
  rw [(hinv.outcome outcome houtcome).2,
    hinv.totals.inclusive (by omega) (.inr (by omega))]

theorem IsMonoid.withEngine (hmonoid : call.IsMonoid)
    (engine : Option (Layout call.participants)) :
    { call with engine := engine }.IsMonoid :=
  ⟨hmonoid.assoc, hmonoid.left_id, hmonoid.right_id⟩

/-- For every monoid, both engines, every cluster layout, every time of a stop
request and every interleaving: a scan in which nothing throws seeds its second
passes with the products of the partials below, and returns the whole
product. -/
theorem scanCorrect_of_run (call : Call T)
    (hthrows : ∀ site, call.throws site = false) (hmonoid : call.IsMonoid)
    {scratch : ℕ → T} {initialTotal : T} {trace : List (Event T)}
    {state : State T}
    (run : Reaches (scan call) (start call scratch initialTotal) trace state) :
    ScanCorrect call trace state where
  inRange := (inv_run hthrows hmonoid run).bounded
  atMostOnce slot hslot :=
    ((inv_run hthrows hmonoid run).history slot hslot).isPrefix
  pass1Once := by
    intro hended slot hslot
    have hinv := inv_run hthrows hmonoid run
    apply (hinv.history slot hslot).pass1Events_isPrefix
    rw [hinv.hasLeft_of_outcome hended hslot]
    simp [Pc.level]
  pass2Once := by
    intro hended hquiet slot hslot
    have hinv := inv_run hthrows hmonoid run
    have hpast := hinv.history slot hslot
    rw [hinv.hasLeft_of_outcome hended hslot, hquiet] at hpast
    rcases hpast with ⟨-, hstop⟩ | hall
    · simp at hstop
    · exact hall
  pass1First _ _ _ _ htrace _ hpeer :=
    pass1End_of_pass2Start hthrows hmonoid run htrace hpeer
  seed _ _ hmem := (inv_run hthrows hmonoid run).seed_eq hmem
  total _ houtcome := (inv_run hthrows hmonoid run).outcome_eq houtcome
  engines := by
    intro engine scratch' initialTotal' otherTrace otherState other
    have hinv := inv_run hthrows hmonoid run
    have hother : Inv { call with engine := engine } otherTrace otherState :=
      inv_run (fun site => hthrows site)
        (IsMonoid.withEngine hmonoid engine) other
    refine ⟨?_, ?_⟩
    · intro slot initial otherInitial hmem hotherMem
      exact (hinv.seed_eq hmem).trans (hother.seed_eq hotherMem).symm
    · intro outcome otherOutcome houtcome hotherOutcome
      exact (hinv.outcome_eq houtcome).trans
        (hother.outcome_eq hotherOutcome).symm
  enabled hrunning := (inv_run hthrows hmonoid run).exists_step hrunning
  shorter _ _ _ haction hstep := remaining_lt haction hstep
  completes := by
    refine exists_completion (State.remaining call)
      (fun state => ∃ trace, Inv call trace state) ?_ ?_ ?_
      ⟨trace, inv_run hthrows hmonoid run⟩
    · rintro state ⟨trace, hinv⟩ hrunning
      apply hinv.exists_step
      cases houtcome : state.outcome with
      | none => rfl
      | some outcome =>
          exact absurd (houtcome.trans
            (congrArg some (hinv.outcome_eq houtcome))) hrunning
    · rintro state action after event ⟨trace, hinv⟩ _ hstep
      exact ⟨_, inv_step hinv hthrows hmonoid hstep⟩
    · rintro state action after event _ haction hstep
      exact remaining_lt haction hstep

end Caller

/-- Three slots in two clusters, scanning with concatenation. -/
def twoClusterCall : Call (List ℕ) where
  participants := 3
  two_le := by decide
  engine := some
    { numClusters := 2
      clusterFirstSlot := fun cluster =>
        if cluster = 0 then 0 else if cluster = 1 then 2 else 3
      first_zero := rfl
      first_lt := by decide
      first_end := rfl
      clusterIdOfSlot := fun slot => if slot < 2 then 0 else 1
      id_lt := by decide
      first_le := by decide
      lt_next := by decide }
  epochs := .fresh
  slotRange := fun slot => (slot, slot + 1)
  identity := []
  body := fun _ lo hi initial => initial ++ List.range' lo (hi - lo)
  prefixFn := fun left right => left ++ right
  throws := fun _ => false

theorem scanCorrect_twoClusterCall :
    ∃ trace state, state.outcome = some (.ok [0, 1, 2]) ∧
      ScanCorrect twoClusterCall trace state := by
  obtain ⟨trace, state, run, hended⟩ :=
    reaches_of_check (scan twoClusterCall) (start twoClusterCall (fun _ => []) [])
      (List.flatten
        [List.replicate 3 (.slot 0), List.replicate 3 (.slot 1),
          List.replicate 3 (.slot 2), List.replicate 5 (.slot 0),
          List.replicate 3 (.slot 2), List.replicate 11 (.slot 0),
          List.replicate 5 (.slot 1), List.replicate 7 (.slot 2), [.join]])
      (fun _ state => state.outcome.any fun outcome =>
        match outcome with
        | .ok total => total = [0, 1, 2]
        | .error _ => false) (by decide)
  refine ⟨trace, state, ?_, scanCorrect_of_run _ (fun _ => rfl) ?_ run⟩
  · cases houtcome : state.outcome with
    | none => simp [houtcome] at hended
    | some outcome =>
        cases outcome <;> simp_all
  · exact ⟨List.append_assoc, List.nil_append, List.append_nil⟩

end Citor.Scan
