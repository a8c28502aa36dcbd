import Citor.Scan.FailureSteps

/-!
# What a scan whose callbacks throw guarantees

Whatever throws and whenever, a flat scan ends with the first captured failure
and never touches an unwritten partial.  The hierarchical engine does so for
the first-pass failures it survives; a failed leader of a later cluster leaves
slot 0 waiting for a stamp that nobody writes.
-/

namespace Citor.ScanFailure

open Citor.Interleaving
open Citor.DoneSlots
open Citor.Scan

variable {T : Type*} {call : Call T} {trace : List (Event T)}
variable {before after state : State T} {slot : ℕ}

/-! ## Runs -/

theorem inv_start (call : Call T) (scratch : ℕ → T) (initialTotal : T) :
    Inv call [] (start call scratch initialTotal) where
  control := by
    refine ⟨fun slot _ => ⟨fun _ => trivial, fun _ => trivial⟩,
      fun slot _ => trivial, ?_, ?_, ?_⟩ <;>
      intros <;> simp_all [rankOf, start, rank, Pc.level]
  stamps := by
    refine ⟨fun slot _ _ => call.epochs.done_le slot, ?_, ?_, ?_, ?_, ?_⟩
    · intro slot _ hstamped
      simp [rankOf, start, rank, Pc.level] at hstamped
    · intro slot _ hfinal
      simp [rankOf, start, rank, Pc.level] at hfinal
    · intro slot _ _ hstamped
      simp [rankOf, start, rank, Pc.level] at hstamped
    · intro _ slot _ _ _
      simp [rankOf, start, rank, Pc.level, stampAt]
    · simp [rankOf, start, rank, Pc.level]
  failures := by
    refine ⟨rfl, by simp, ?_, by simp, by simp, ?_, ?_⟩
    · intro slot _ site next hat
      simp [start] at hat
    · intro slot _ hat
      simp [start] at hat
    · intro slot _ _ hat
      simp [rankOf, start, rank, Pc.level] at hat
  passes := by
    refine ⟨?_, by simp⟩
    intro slot _ _ hpast
    simp [rankOf, start, rank, Pc.level] at hpast
  outcome := by simp [start]

/-- Every step of the machine keeps the invariant. -/
theorem inv_step (hsurvives : Survives call) (hinv : Inv call trace before)
    {action : Action} {event : Option (Event T)}
    (hstep : (scan call).step before action = some (after, event)) :
    Inv call (trace ++ event.toList) after := by
  cases action with
  | slot slot =>
      simp only [scan] at hstep
      split at hstep
      next hslot =>
        have hkept := stepSlot_kept hinv hsurvives hslot hstep
        refine ⟨hkept.control, hkept.stamps, hkept.failures, hkept.passes, ?_⟩
        intro outcome houtcome
        rw [(stepSlot_frame hstep).2] at houtcome
        -- a slot that can still step has not left
        have hall := (hinv.outcome outcome houtcome).1
        simp only [State.allLeft, List.all_eq_true, List.mem_range] at hall
        have hleft := hall slot hslot
        cases hpc : before.pc slot with
        | left => simp [stepSlot, hpc] at hstep
        | _ => simp [hpc, Pc.hasLeft] at hleft
      next => simp at hstep
  | join =>
      simp only [scan] at hstep
      split at hstep
      next hready =>
        obtain ⟨rfl, rfl⟩ := by simpa using hstep
        obtain ⟨hroute, hseen, hgroup, hclusters, hpublished⟩ := hinv.control
        obtain ⟨h1, h2, h3, h4, h5, h6⟩ := hinv.stamps
        obtain ⟨hc, hcaught, hcapturing, hthrew, hthrower, hkept, hraised⟩ :=
          hinv.failures
        rw [Option.toList_none, List.append_nil]
        refine ⟨⟨hroute, hseen, hgroup, hclusters, hpublished⟩,
          ⟨h1, h2, h3, h4, h5, h6⟩,
          ⟨hc, hcaught, hcapturing, hthrew, hthrower, hkept, hraised⟩,
          ⟨hinv.passes.ended, hinv.passes.seconds⟩, ?_⟩
        · intro outcome houtcome
          exact ⟨hready.2, by simpa [scanOutcome] using houtcome.symm⟩
      next => simp at hstep
  | requestStop =>
      obtain ⟨rfl, rfl⟩ := by simpa [scan] using hstep
      obtain ⟨hroute, hseen, hgroup, hclusters, hpublished⟩ := hinv.control
      obtain ⟨h1, h2, h3, h4, h5, h6⟩ := hinv.stamps
      obtain ⟨hc, hcaught, hcapturing, hthrew, hthrower, hkept, hraised⟩ :=
        hinv.failures
      rw [Option.toList_none, List.append_nil]
      exact ⟨⟨hroute, hseen, hgroup, hclusters, hpublished⟩,
        ⟨h1, h2, h3, h4, h5, h6⟩,
        ⟨hc, hcaught, hcapturing, hthrew, hthrower, hkept, hraised⟩,
        ⟨hinv.passes.ended, hinv.passes.seconds⟩, hinv.outcome⟩

theorem inv_run (hsurvives : Survives call) {scratch : ℕ → T}
    {initialTotal : T}
    (run : Reaches (scan call) (start call scratch initialTotal) trace
      state) : Inv call trace state :=
  run.invariant (Inv call) (inv_start call scratch initialTotal)
    fun hinv _ hstep => inv_step hsurvives hinv hstep

/-! ## Progress -/

/-- A slot that cannot move waits behind its stamp or has left. -/
theorem idle_cases (hidle : stepSlot call state slot = none) :
    ((state.pc slot).waits = true ∧ 3 ≤ rankOf state slot) ∨
      state.pc slot = .left := by
  have hblocked : (state.pc slot).waits = true ∨
      (state.pc slot).hasLeft = true := by
    by_contra hfree
    rw [not_or, Bool.not_eq_true, Bool.not_eq_true] at hfree
    obtain ⟨after, event, hstep⟩ :=
      stepSlot_of_not_waits call hfree.1 hfree.2
    simp [hidle] at hstep
  unfold rankOf
  cases hpc : state.pc slot <;> rw [hpc] at hblocked <;>
    simp_all [Pc.waits, Pc.hasLeft, rank, Pc.level]

section Idle

variable (hidle : ∀ slot < call.participants, stepSlot call state slot = none)
include hidle

theorem Inv.idle_stamped (hinv : Inv call trace state)
    (hslot : slot < call.participants) :
    call.epochs.epochBase + 1 ≤ state.done slot := by
  apply hinv.stamps.stamped slot hslot
  rcases idle_cases (hidle slot hslot) with ⟨-, hpast⟩ | hleft
  · exact hpast
  · simp [rankOf, hleft, rank, Pc.level]

/-- No leader is held up by its members. -/
theorem Inv.idle_past_members (hinv : Inv call trace state)
    (hslot : slot < call.participants) : 7 ≤ rankOf state slot := by
  have hnone := hidle slot hslot
  rcases idle_cases hnone with ⟨hwaits, -⟩ | hleft
  · unfold rankOf
    cases hpc : state.pc slot with
    | awaitPass1 member =>
        simp only [stepSlot, hpc] at hnone
        split at hnone
        next hmember =>
          have := hinv.idle_stamped hidle
            (hmember.trans_le (call.groupEnd_le hslot))
          rw [if_neg (by omega)] at hnone
          simp at hnone
        next => simp at hnone
    | awaitCluster | awaitPrefixes | awaitCombined | awaitLeft =>
        simp [rank, Pc.level]
    | _ => simp [hpc, Pc.waits] at hwaits
  · simp [rankOf, hleft, rank, Pc.level]

/-- Slot 0 has published the prefixes. -/
theorem Inv.idle_published (hinv : Inv call trace state)
    (hsurvives : Survives call) : state.prefixesPublished = true := by
  have htwo := call.two_le
  have hzero : 0 < call.participants := by omega
  have hnone := hidle 0 hzero
  rw [hinv.stamps.published]
  rcases idle_cases hnone with ⟨hwaits, -⟩ | hleft
  · cases hpc : state.pc 0 with
    | awaitLeft other => simp [rankOf, hpc, rank]
    | awaitCluster cluster =>
        obtain ⟨hfine, hhier, -, -, hcluster⟩ :=
          hinv.fine hzero hpc (by simp [FailedPlace])
        have hleader := call.clusterFirst_lt_participants hcluster
        have howns := call.leader_clusterFirst hcluster
        have hleaderFine := hsurvives.leader hhier hfine hleader
        rw [howns] at hleaderFine
        have hstamp := hinv.stamps.cluster hhier _ hleader howns hleaderFine
        rw [call.cluster_clusterFirst hcluster] at hstamp
        have hseven := hinv.idle_past_members hidle hleader
        have hone : ¬ state.clusterStamp cluster < 1 := by
          rw [hstamp, stampAt, if_pos hseven]
          split <;> decide
        simp [stepSlot, hpc, hone] at hnone
    | awaitPass1 member =>
        have hpast := hinv.idle_past_members hidle hzero
        simp [rankOf, hpc, rank, Pc.level] at hpast
    | awaitPrefixes =>
        obtain ⟨-, hne, -⟩ := hinv.fine hzero hpc (by simp [FailedPlace])
        exact absurd rfl hne
    | awaitCombined =>
        obtain ⟨-, -, hfollows⟩ := hinv.fine hzero hpc (by simp [FailedPlace])
        exact absurd call.leader_zero hfollows
    | _ => simp [hpc, Pc.waits] at hwaits
  · simp [rankOf, hleft, rank, Pc.level]

/-- Then every leader whose first pass returned has left. -/
theorem Inv.idle_leader_left (hinv : Inv call trace state)
    (hsurvives : Survives call) (hslot : slot < call.participants)
    (hfine : fails call slot = false) (hleads : call.leader slot = slot) :
    state.pc slot = .left := by
  have htwo := call.two_le
  have hpublished := hinv.idle_published hidle hsurvives
  have hnone := hidle slot hslot
  rcases idle_cases hnone with ⟨hwaits, -⟩ | hleft
  · cases hpc : state.pc slot with
    | awaitPrefixes => simp [stepSlot, hpc, hpublished] at hnone
    | awaitCluster cluster =>
        obtain ⟨-, -, rfl, -, -⟩ :=
          hinv.fine hslot hpc (by simp [FailedPlace])
        have hten := hinv.stamps.published.1 hpublished
        simp [rankOf, hpc, rank, Pc.level] at hten
    | awaitPass1 member =>
        have hpast := hinv.idle_past_members hidle hslot
        simp [rankOf, hpc, rank, Pc.level] at hpast
    | awaitCombined =>
        obtain ⟨-, -, hfollows⟩ := hinv.fine hslot hpc (by simp [FailedPlace])
        exact absurd hleads hfollows
    | awaitLeft other =>
        obtain ⟨hfails, -⟩ := hinv.failed hslot hpc (by simp [Place])
        simp [hfine] at hfails
    | _ => simp [hpc, Pc.waits] at hwaits
  · exact hleft

/-- Then every slot but a failed slot 0 has left. -/
theorem Inv.idle_left (hinv : Inv call trace state)
    (hsurvives : Survives call) (hslot : slot < call.participants)
    (hnot : ∀ other, state.pc slot ≠ .awaitLeft other) :
    state.pc slot = .left := by
  have hpublished := hinv.idle_published hidle hsurvives
  have hnone := hidle slot hslot
  rcases idle_cases hnone with ⟨hwaits, -⟩ | hleft
  · cases hpc : state.pc slot with
    | awaitPrefixes => simp [stepSlot, hpc, hpublished] at hnone
    | awaitCombined =>
        obtain ⟨hfine, hhier, -⟩ :=
          hinv.fine hslot hpc (by simp [FailedPlace])
        have hleaderFine := hsurvives.leader_of_member hhier hslot hfine
        have hleader := hinv.idle_leader_left hidle hsurvives
          (call.leader_lt hslot) hleaderFine (call.leader_leader hslot)
        have hstamp := hinv.stamps.cluster hhier _ (call.leader_lt hslot)
          (call.leader_leader hslot) hleaderFine
        rw [call.cluster_leader hslot] at hstamp
        simp [rankOf, hleader, rank, Pc.level, stampAt] at hstamp
        simp [stepSlot, hpc, hstamp] at hnone
    | awaitCluster cluster =>
        obtain ⟨hfine, -, rfl, -, -⟩ :=
          hinv.fine hslot hpc (by simp [FailedPlace])
        have hleft := hinv.idle_leader_left hidle hsurvives hslot hfine
          call.leader_zero
        simp [hpc] at hleft
    | awaitPass1 member =>
        have hpast := hinv.idle_past_members hidle hslot
        simp [rankOf, hpc, rank, Pc.level] at hpast
    | awaitLeft other => exact absurd hpc (hnot other)
    | _ => simp [hpc, Pc.waits] at hwaits
  · exact hleft

end Idle

/-- No reachable state is stuck: as long as a slot has not left, some slot can
move. -/
theorem Inv.exists_slot_step (hinv : Inv call trace state)
    (hsurvives : Survives call) (hrunning : state.allLeft call = false) :
    ∃ slot < call.participants, ∃ after event,
      stepSlot call state slot = some (after, event) := by
  by_contra hstuck
  have hidle : ∀ slot < call.participants,
      stepSlot call state slot = none := by
    intro slot hslot
    cases hstep : stepSlot call state slot with
    | none => rfl
    | some next => exact absurd ⟨slot, hslot, _, _, hstep⟩ hstuck
  simp only [State.allLeft, List.all_eq_false, List.mem_range,
    Bool.not_eq_true] at hrunning
  obtain ⟨slot, hslot, hstays⟩ := hrunning
  by_cases hwaits : ∃ other, state.pc slot = .awaitLeft other
  · -- slot 0 waits for a slot that has left
    obtain ⟨other, hpc⟩ := hwaits
    obtain ⟨-, hzero, hone⟩ := hinv.failed hslot hpc (by simp [Place])
    have hnone := hidle slot hslot
    simp only [stepSlot, hpc] at hnone
    split at hnone
    next hother =>
      have hleft := hinv.idle_left hidle hsurvives hother (by
        intro waited hat
        obtain ⟨-, hotherZero, -⟩ :=
          hinv.failed hother hat (by simp [Place])
        omega)
      have hfinal := hinv.stamps.final other hother
        (by simp [rankOf, hleft, rank, Pc.level])
      rw [if_neg (by omega)] at hnone
      simp at hnone
    next => simp at hnone
  · push Not at hwaits
    have hleft := hinv.idle_left hidle hsurvives hslot hwaits
    simp [hleft, Pc.hasLeft] at hstays

theorem Inv.exists_step (hinv : Inv call trace state)
    (hsurvives : Survives call) (hrunning : state.outcome = none) :
    ∃ action after event, action ≠ .requestStop ∧
      (scan call).step state action = some (after, event) := by
  cases hall : state.allLeft call with
  | true =>
      exact ⟨.join, _, _, by simp, if_pos ⟨by simp [hrunning], hall⟩⟩
  | false =>
      obtain ⟨slot, hslot, after, event, hstep⟩ :=
        hinv.exists_slot_step hsurvives hall
      exact ⟨.slot slot, after, event, by simp, by simp [scan, hslot, hstep]⟩

/-! ## What a caller sees -/

/-- One run of a scan call whose callbacks may throw. -/
structure FailureSafe (call : Call T) (trace : List (Event T))
    (state : State T) : Prop where
  /-- `prefix` is only invoked on partials that their first pass has
  written. -/
  written : ∀ slot < call.participants, ∀ member,
    (∃ acc, state.pc slot = .reduce member acc) ∨
        (∃ cPrefix, state.pc slot = .combine member cPrefix) →
      .pass1End member ∈ trace
  /-- Where a first pass throws no second pass runs. -/
  suppressed : ∀ slot, .threw (.pass1 slot) ∈ trace → ∀ other initial,
    .pass2Start other initial ∉ trace
  /-- Until the call has ended some slot or the join can take a step. -/
  enabled : state.outcome = none → ∃ action after event,
    action ≠ .requestStop ∧
      (scan call).step state action = some (after, event)
  /-- Every such step leaves less to do. -/
  shorter : ∀ action after event, action ≠ .requestStop →
    (scan call).step state action = some (after, event) →
      after.remaining call < state.remaining call
  /-- So the call can always be completed. -/
  completes : ∃ rest final,
    Run (scan call) (fun _ action => action ≠ .requestStop) state rest final ∧
      final.outcome ≠ none
  /-- It ends when all slots have left: with the first captured failure if
  anything threw, and normally otherwise. -/
  outcome : ∀ outcome, state.outcome = some outcome →
    state.allLeft call = true ∧
      ((∃ site, outcome = .error site ∧ .threw site ∈ trace ∧
          (trace.filterMap capturedSite).head? = some site) ∨
        (outcome = .ok state.inclusiveTotal ∧
          ∀ site, .threw site ∉ trace))

section Caller

theorem Inv.written (hinv : Inv call trace state) (hsurvives : Survives call)
    (hslot : slot < call.participants) {member : ℕ}
    (hat : (∃ acc, state.pc slot = .reduce member acc) ∨
      ∃ cPrefix, state.pc slot = .combine member cPrefix) :
    .pass1End member ∈ trace := by
  rcases hat with ⟨acc, hpc⟩ | ⟨cPrefix, hpc⟩
  · obtain ⟨hfine, hleads, hlow, hend, hquiet, hcalm⟩ :=
      hinv.fine hslot hpc (by simp [FailedPlace])
    have hmember := hend.trans_le (call.groupEnd_le hslot)
    have hmemberFine : fails call member = false := by
      cases hhier : call.hierarchical with
      | true =>
          exact hsurvives.member hhier hslot hfine hleads hlow hend
            (.inl hquiet)
      | false => exact hcalm hhier member hmember
    have hpast := hinv.control.group slot hslot hfine hleads
      (by simp [rankOf, hpc, rank, Pc.level]) member hlow hend
    exact hinv.passes.ended member hmember hmemberFine (by omega)
  · obtain ⟨hfine, hhier, hleads, hlow, hend, hquiet⟩ :=
      hinv.fine hslot hpc (by simp [FailedPlace])
    have hmember := hend.trans_le (call.groupEnd_le hslot)
    have hmemberFine := hsurvives.member hhier hslot hfine hleads hlow hend
      (.inr hquiet)
    have hpast := hinv.control.group slot hslot hfine hleads
      (by simp [rankOf, hpc, rank, Pc.level]) member hlow hend
    exact hinv.passes.ended member hmember hmemberFine (by omega)

theorem Inv.outcome_cases (hinv : Inv call trace state)
    {outcome : Except Site T} (houtcome : state.outcome = some outcome) :
    state.allLeft call = true ∧
      ((∃ site, outcome = .error site ∧ .threw site ∈ trace ∧
          (trace.filterMap capturedSite).head? = some site) ∨
        (outcome = .ok state.inclusiveTotal ∧
          ∀ site, .threw site ∉ trace)) := by
  obtain ⟨hall, hvalue⟩ := hinv.outcome outcome houtcome
  refine ⟨hall, ?_⟩
  cases hfirst : state.firstException with
  | some site =>
      have hhead := hinv.failures.captured
      rw [hfirst] at hhead
      refine .inl ⟨site, by rw [hvalue, scanOutcome, hfirst], ?_, hhead.symm⟩
      apply hinv.failures.caught
      have hmem := List.mem_of_mem_head? (Option.mem_def.2 hhead.symm)
      obtain ⟨event, hevent, hsite⟩ := List.mem_filterMap.1 hmem
      cases event with
      | captured first =>
          obtain rfl : first = site := by simpa [capturedSite] using hsite
          exact hevent
      | _ => simp [capturedSite] at hsite
  | none =>
      refine .inr ⟨by rw [hvalue, scanOutcome, hfirst], ?_⟩
      intro site hthrew
      rcases hinv.failures.threw ⟨site, hthrew⟩ with
          hcaptured | ⟨holder, hholder, capturing, next, hpc⟩
      · exact hcaptured hfirst
      · simp only [State.allLeft, List.all_eq_true, List.mem_range] at hall
        have hleft := hall holder hholder
        simp [hpc, Pc.hasLeft] at hleft

/-- For both engines, every layout, set of throwing bodies and `prefix` calls,
time of a stop request and interleaving: a scan call whose first-pass failures
are survived cannot get stuck, rethrows one captured failure, keeps `prefix`
from unwritten partials and runs no second pass behind a failed first. -/
theorem failureSafe_of_run (call : Call T) (hsurvives : Survives call)
    {scratch : ℕ → T} {initialTotal : T} {trace : List (Event T)}
    {state : State T}
    (run : Reaches (scan call) (start call scratch initialTotal) trace
      state) : FailureSafe call trace state where
  written _ hslot _ hat := (inv_run hsurvives run).written hsurvives hslot hat
  suppressed _ hthrew other initial hstarted := by
    have hinv := inv_run hsurvives run
    obtain ⟨hslot, hfails⟩ := hinv.failures.thrower _ hthrew
    exact not_calm hslot hfails (hinv.passes.seconds other initial hstarted)
  enabled hrunning := (inv_run hsurvives run).exists_step hsurvives hrunning
  shorter _ _ _ haction hstep := remaining_lt haction hstep
  completes := by
    refine exists_completion (State.remaining call)
      (fun state => ∃ trace, Inv call trace state) ?_ ?_ ?_
      ⟨trace, inv_run hsurvives run⟩
    · rintro state ⟨trace, hinv⟩ hrunning
      exact hinv.exists_step hsurvives (by simpa using hrunning)
    · rintro state action after event ⟨trace, hinv⟩ _ hstep
      exact ⟨_, inv_step hsurvives hinv hstep⟩
    · rintro state action after event _ haction hstep
      exact remaining_lt haction hstep
  outcome _ houtcome := (inv_run hsurvives run).outcome_cases houtcome

end Caller

/-- Four slots in two clusters. -/
def twoClusters : Layout 4 where
  numClusters := 2
  clusterFirstSlot := fun cluster => 2 * cluster
  first_zero := rfl
  first_lt := fun cluster _ => Nat.mul_lt_mul_of_pos_left
    (Nat.lt_succ_self cluster) Nat.zero_lt_two
  first_end := rfl
  clusterIdOfSlot := fun slot => slot / 2
  id_lt := by decide
  first_le := by decide
  lt_next := by decide

/-- A sum over four indices. -/
def throwingScan (throws : Site → Bool) : Call ℕ where
  participants := 4
  two_le := by decide
  engine := some twoClusters
  epochs := .fresh
  slotRange := fun slot => (slot, slot + 1)
  identity := 0
  body := fun _ lo _ initial => initial + lo
  prefixFn := fun left right => left + right
  throws := throws

/-- The second pass of slot 0 throws, and `prefix` in the second cluster. -/
def secondPassThrows : Site → Bool
  | .pass2 slot => slot == 0
  | .combine slot => slot == 3
  | _ => false

theorem failureSafe_secondPassThrows :
    ∃ trace state,
      (∃ site, state.outcome = some (.error site)) ∧
        FailureSafe (throwingScan secondPassThrows) trace state := by
  obtain ⟨trace, state, run, hended⟩ :=
    reaches_of_check (scan (throwingScan secondPassThrows))
      (start (throwingScan secondPassThrows) (fun _ => 0) 0)
      (List.flatten
        [List.replicate 3 (.slot 0), List.replicate 3 (.slot 1),
          List.replicate 3 (.slot 2), List.replicate 3 (.slot 3),
          List.replicate 5 (.slot 0), List.replicate 5 (.slot 2),
          List.replicate 13 (.slot 0), List.replicate 4 (.slot 1),
          List.replicate 9 (.slot 2), List.replicate 4 (.slot 3), [.join]])
      (fun _ state => state.outcome.any fun outcome =>
        match outcome with
        | .ok _ => false
        | .error site => site = .pass2 0) (by decide +kernel)
  refine ⟨trace, state, ?_, failureSafe_of_run _ ?_ run⟩
  · cases houtcome : state.outcome with
    | none => simp [houtcome] at hended
    | some outcome =>
        cases outcome with
        | ok total => simp [houtcome] at hended
        | error site => exact ⟨site, rfl⟩
  · intro _ slot _ hfails
    simp [fails, throwingScan, secondPassThrows] at hfails

/-! ## A failed leader -/

/-- The first pass of slot 2, the leader of the second cluster, throws. -/
def leaderThrows : Site → Bool
  | .pass1 slot => slot == 2
  | _ => false

/-- Slot 0 waits for the total of the second cluster, everybody else for slot
0 or for the failed leader. -/
def stuckSchedule : List Action :=
  List.flatten
    [List.replicate 3 (.slot 0), List.replicate 3 (.slot 1),
      List.replicate 5 (.slot 2), List.replicate 3 (.slot 3),
      List.replicate 5 (.slot 0)]

theorem not_failureSafe_leaderThrows :
    ∃ trace state,
      Reaches (scan (throwingScan leaderThrows))
          (start (throwingScan leaderThrows) (fun _ => 0) 0) trace state ∧
        state.outcome = none ∧
        (∀ action, action ≠ .requestStop →
          (scan (throwingScan leaderThrows)).step state action = none) ∧
        ¬ FailureSafe (throwingScan leaderThrows) trace state := by
  obtain ⟨trace, state, run, hstuck⟩ :=
    reaches_of_check (scan (throwingScan leaderThrows))
      (start (throwingScan leaderThrows) (fun _ => 0) 0) stuckSchedule
      (fun _ state => state.outcome.isNone &&
        !state.allLeft (throwingScan leaderThrows) &&
        (List.range 4).all fun slot =>
          (stepSlot (throwingScan leaderThrows) state slot).isNone)
      (by decide +kernel)
  simp only [Bool.and_eq_true, Option.isNone_iff_eq_none,
    Bool.not_eq_true', List.all_eq_true, List.mem_range] at hstuck
  obtain ⟨⟨hrunning, hstays⟩, hidle⟩ := hstuck
  have hnone : ∀ action, action ≠ .requestStop →
      (scan (throwingScan leaderThrows)).step state action = none := by
    intro action haction
    cases action with
    | slot slot =>
        simp only [scan]
        split
        next hslot => exact hidle slot hslot
        next => rfl
    | join => simp [scan, hstays]
    | requestStop => exact absurd rfl haction
  refine ⟨trace, state, run, hrunning, hnone, fun hsafe => ?_⟩
  obtain ⟨action, after, event, haction, hstep⟩ := hsafe.enabled hrunning
  simp [hnone action haction] at hstep

end Citor.ScanFailure
