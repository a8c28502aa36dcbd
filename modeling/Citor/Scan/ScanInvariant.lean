import Citor.Scan.ScanLayout

/-!
# The invariant of an undisturbed scan

With no callback throwing, every slot climbs through levels.  The level of a
group's leader says what the partials of the group hold, the level of slot 0
what the prefixes hold, and a slot only gets past a wait when the slots it
waits for have reached the level it needs.
-/

namespace Citor.Scan

open Citor.Interleaving
open Citor.DoneSlots

variable {T : Type*}

/-! ## Levels -/

/-- How far a program counter has come.  The exits of a failed slot have no
level of their own. -/
def Pc.level : Pc T → ℕ
  | .pass1Enter => 0
  | .pass1Body => 1
  | .stampPass1 => 2
  | .awaitPass1 _ => 3
  | .loadFailed => 4
  | .reduce _ _ => 5
  | .publishTotal _ => 6
  | .awaitCluster _ => 7
  | .crossReduce _ _ => 8
  | .publishPrefixes _ | .awaitPrefixes | .awaitCombined => 9
  | .combine _ _ => 10
  | .stampCluster => 11
  | .loadCancelled => 12
  | .pollToken => 13
  | .repollToken | .pass2Body => 14
  | .storeCancelled => 15
  | .stampPass2 => 16
  | .left => 17
  | .capture _ _ | .arm _ | .stampFailed | .publishFailed | .awaitLeft _ => 0

def State.level (state : State T) (slot : ℕ) : ℕ :=
  (state.pc slot).level

/-- What the levels of the slots say about one another. -/
structure Ordered (call : Call T) (level : ℕ → ℕ) : Prop where
  /-- A leader past its wait knows its members have stamped their pass 1. -/
  group : ∀ slot < call.participants, call.leader slot = slot →
    4 ≤ level slot → ∀ member, slot ≤ member →
      member < call.groupEnd slot → 3 ≤ level member
  clusters : 8 ≤ level 0 → ∀ cluster < call.numClusters,
    7 ≤ level (call.clusterFirst cluster)
  published : ∀ slot < call.participants, 10 ≤ level slot → 10 ≤ level 0
  combined : ∀ slot < call.participants, 12 ≤ level slot →
    12 ≤ level (call.leader slot)

/-- Which slots get to a program counter, and the bounds of its loops. -/
def Shape (call : Call T) (slot : ℕ) : Pc T → Prop
  | .awaitPass1 member => call.leader slot = slot ∧ slot < member
  | .loadFailed => call.hierarchical = false ∧ slot = 0
  | .reduce member _ =>
      call.leader slot = slot ∧ slot ≤ member ∧ member < call.groupEnd slot
  | .publishTotal _ => call.hierarchical = true ∧ call.leader slot = slot
  | .awaitCluster cluster =>
      call.hierarchical = true ∧ slot = 0 ∧ 1 ≤ cluster ∧
        cluster < call.numClusters
  | .crossReduce cluster _ =>
      call.hierarchical = true ∧ slot = 0 ∧ cluster < call.numClusters
  | .publishPrefixes _ => slot = 0
  | .awaitPrefixes =>
      slot ≠ 0 ∧ (call.hierarchical = true → call.leader slot = slot)
  | .combine member _ =>
      call.hierarchical = true ∧ call.leader slot = slot ∧ slot ≤ member ∧
        member < call.groupEnd slot
  | .stampCluster => call.hierarchical = true ∧ call.leader slot = slot
  | .awaitCombined => call.hierarchical = true ∧ call.leader slot ≠ slot
  | .capture _ _ | .arm _ | .stampFailed | .publishFailed | .awaitLeft _ =>
      False
  | _ => True

/-- What a slot in the middle of a wait has seen. -/
def Seen (call : Call T) (level : ℕ → ℕ) (slot : ℕ) : Pc T → Prop
  | .awaitPass1 member => ∀ other, slot ≤ other → other < member →
      other < call.groupEnd slot → 3 ≤ level other
  | .awaitCluster cluster => ∀ other < cluster,
      7 ≤ level (call.clusterFirst other)
  | _ => True

/-- The part of the invariant about program counters alone. -/
structure Control (call : Call T) (state : State T) : Prop where
  shape : ∀ slot < call.participants, Shape call slot (state.pc slot)
  seen : ∀ slot < call.participants,
    Seen call state.level slot (state.pc slot)
  ordered : Ordered call state.level

/-! ## Stamps -/

/-- The cluster stamp a leader at this level has stored. -/
def stampAt (level : ℕ) : ℕ :=
  if 12 ≤ level then 2 else if 7 ≤ level then 1 else 0

/-- The stamps follow the levels. -/
structure Stamps (call : Call T) (state : State T) : Prop where
  unstamped : ∀ slot < call.participants, state.level slot < 3 →
    state.done slot ≤ call.epochs.epochBase
  stamped : ∀ slot < call.participants, 3 ≤ state.level slot →
    call.epochs.epochBase + 1 ≤ state.done slot
  cluster : call.hierarchical = true → ∀ slot < call.participants,
    call.leader slot = slot →
      state.clusterStamp (call.cluster slot) = stampAt (state.level slot)
  published : state.prefixesPublished = true ↔ 10 ≤ state.level 0

/-! ## Values -/

/-- What the partial of `member` holds once its first pass is through, by
where the leader of its group stands. -/
def expected (call : Call T) (member : ℕ) : Pc T → T
  | .reduce next _ =>
      if member < next then product call (call.leader member) member
      else call.partialOf member
  | .combine next _ =>
      if member < next then product call 0 member
      else product call (call.leader member) member
  | pc =>
      if pc.level ≤ 4 then call.partialOf member
      else if pc.level ≤ 9 then product call (call.leader member) member
      else product call 0 member

/-- What a slot has accumulated. -/
def Accumulated (call : Call T) (clusterPrefixes : ℕ → T) (slot : ℕ) :
    Pc T → Prop
  | .reduce member acc => acc = product call slot member
  | .publishTotal localAcc =>
      localAcc = product call slot (call.groupEnd slot)
  | .crossReduce cluster globalAcc =>
      globalAcc = product call 0 (call.clusterFirst cluster) ∧
        ∀ earlier < cluster,
          clusterPrefixes earlier = product call 0 (call.clusterFirst earlier)
  | .publishPrefixes acc =>
      acc = product call 0 call.participants ∧
        (call.hierarchical = true → ∀ cluster < call.numClusters,
          clusterPrefixes cluster =
            product call 0 (call.clusterFirst cluster))
  | .combine _ cPrefix => cPrefix = product call 0 slot
  | _ => True

/-- The partials follow the leaders. -/
def Partials (call : Call T) (state : State T) : Prop :=
  ∀ slot < call.participants, 2 ≤ state.level slot →
    state.partials slot = expected call slot (state.pc (call.leader slot))

/-- The totals, the cluster prefixes and the accumulators. -/
structure Totals (call : Call T) (state : State T) : Prop where
  accumulated : ∀ slot < call.participants,
    Accumulated call state.clusterPrefixes slot (state.pc slot)
  totals : call.hierarchical = true → ∀ slot < call.participants,
    call.leader slot = slot → 7 ≤ state.level slot →
      state.clusterTotals (call.cluster slot) =
        product call slot (call.groupEnd slot)
  prefixes : call.hierarchical = true → 10 ≤ state.level 0 →
    ∀ cluster < call.numClusters, state.clusterPrefixes cluster =
      product call 0 (call.clusterFirst cluster)
  acc : 10 ≤ state.level 0 → state.acc = product call 0 call.participants
  inclusive : 10 ≤ state.level 0 →
    call.hierarchical = true ∨ 17 ≤ state.level 0 →
      state.inclusiveTotal = product call 0 call.participants

/-! ## Histories -/

/-- The slot whose pass an event starts or ends. -/
def Event.passOf : Event T → Option ℕ
  | .pass1Start slot | .pass1End slot | .pass2Start slot _ | .pass2End slot =>
      some slot
  | .threw _ | .captured _ => none

/-- The events of one slot's first pass. -/
def pass1Events (slot : ℕ) : List (Event T) :=
  [.pass1Start slot, .pass1End slot]

/-- The events of one slot, by where it stands. -/
def History (call : Call T) (stop : Bool) (slot : ℕ) :
    Pc T → List (Event T) → Prop
  | .pass1Enter, events => events = []
  | .pass1Body, events => events = [.pass1Start slot]
  | .repollToken, events | .storeCancelled, events =>
      events = pass1Events slot ∧ stop = true
  | .pass2Body, events =>
      events = pass1Events slot ++ [.pass2Start slot (product call 0 slot)]
  | .stampPass2, events | .left, events =>
      (events = pass1Events slot ∧ stop = true) ∨
        events = pass1Events slot ++
          [.pass2Start slot (product call 0 slot), .pass2End slot]
  | _, events => events = pass1Events slot

/-- The invariant of a scan in which nothing throws. -/
structure Inv (call : Call T) (trace : List (Event T)) (state : State T) :
    Prop where
  control : Control call state
  stamps : Stamps call state
  partials : Partials call state
  totals : Totals call state
  history : ∀ slot < call.participants,
    History call state.stopRequested slot (state.pc slot)
      (trace.filter fun event => event.passOf = some slot)
  bounded : ∀ event ∈ trace, ∃ slot < call.participants,
    event.passOf = some slot
  cancelled : state.scanCancelled = true → state.stopRequested = true
  calm : state.firstException = none
  outcome : ∀ outcome, state.outcome = some outcome →
    state.allLeft call = true ∧ outcome = .ok state.inclusiveTotal

/-! ## Moving one slot -/

/-- The thresholds of the levels at which some part of the invariant changes
its meaning. -/
def Crosses (bounds : List ℕ) (old new : ℕ) : Prop :=
  ∃ bound ∈ bounds, old < bound ∧ bound ≤ new

section Moving

variable {call : Call T} {before after : State T} {slot : ℕ} {pc : Pc T}

theorem level_of_update (hpc : after.pc = Function.update before.pc slot pc) :
    after.level = Function.update before.level slot pc.level := by
  funext other
  by_cases hsame : other = slot
  · subst hsame
    simp [State.level, hpc]
  · simp [State.level, hpc, hsame]

theorem level_self (hpc : after.pc = Function.update before.pc slot pc) :
    after.level slot = pc.level := by
  simp [level_of_update hpc]

theorem level_other (hpc : after.pc = Function.update before.pc slot pc)
    {other : ℕ} (hother : other ≠ slot) :
    after.level other = before.level other := by
  simp [level_of_update hpc, hother]

theorem level_mono (hpc : after.pc = Function.update before.pc slot pc)
    (hup : before.level slot ≤ pc.level) (other : ℕ) :
    before.level other ≤ after.level other := by
  by_cases hsame : other = slot
  · subst hsame
    rwa [level_self hpc]
  · exact (level_other hpc hsame).ge

/-- A slot that does not cross a bound was beyond it before. -/
theorem le_of_not_crosses {bounds : List ℕ} {old new bound : ℕ}
    (hcross : ¬ Crosses bounds old new) (hmem : bound ∈ bounds)
    (hnew : bound ≤ new) : bound ≤ old := by
  by_contra hless
  exact hcross ⟨bound, hmem, by omega, hnew⟩

/-- Slot 0 is beyond the bounds it has not crossed only if it was before. -/
theorem level_zero_of_update {bounds : List ℕ} {bound : ℕ}
    (hpc : after.pc = Function.update before.pc slot pc)
    (hzero : slot = 0 → ¬ Crosses bounds (before.level slot) pc.level)
    (hmem : bound ∈ bounds) (hafter : bound ≤ after.level 0) :
    bound ≤ before.level 0 := by
  by_cases hsame : (0 : ℕ) = slot
  · subst hsame
    rw [level_self hpc] at hafter
    exact le_of_not_crosses (hzero rfl) hmem hafter
  · rwa [level_other hpc hsame] at hafter

theorem Seen.mono {level level' : ℕ → ℕ} (hle : ∀ other, level other ≤ level' other)
    (hseen : Seen call level slot pc) : Seen call level' slot pc := by
  cases pc with
  | awaitPass1 member =>
      intro other hlow hhigh hend
      exact (hseen other hlow hhigh hend).trans (hle other)
  | awaitCluster cluster =>
      intro other hother
      exact (hseen other hother).trans (hle _)
  | _ => trivial

/-- What the climbing slot owes when it passes a bound that the others rely
on. -/
structure Climbs (call : Call T) (before : State T) (slot new : ℕ) : Prop where
  up : before.level slot ≤ new
  group : before.level slot < 4 → 4 ≤ new → call.leader slot = slot →
    ∀ member, slot < member → member < call.groupEnd slot →
      3 ≤ before.level member
  clusters : before.level slot < 8 → 8 ≤ new → slot = 0 →
    ∀ cluster < call.numClusters, 1 ≤ cluster →
      7 ≤ before.level (call.clusterFirst cluster)
  published : before.level slot < 10 → 10 ≤ new →
    slot = 0 ∨ 10 ≤ before.level 0
  combined : before.level slot < 12 → 12 ≤ new →
    call.leader slot = slot ∨ 12 ≤ before.level (call.leader slot)

/-- Within one band nothing is owed. -/
theorem Climbs.within {new : ℕ} (hup : before.level slot ≤ new)
    (hcross : ¬ Crosses [4, 8, 10, 12] (before.level slot) new) :
    Climbs call before slot new where
  up := hup
  group := fun hless hnew =>
    absurd (le_of_not_crosses hcross (by simp) hnew) (by omega)
  clusters := fun hless hnew =>
    absurd (le_of_not_crosses hcross (by simp) hnew) (by omega)
  published := fun hless hnew =>
    absurd (le_of_not_crosses hcross (by simp) hnew) (by omega)
  combined := fun hless hnew =>
    absurd (le_of_not_crosses hcross (by simp) hnew) (by omega)

theorem Ordered.climb (hordered : Ordered call before.level)
    (hpc : after.pc = Function.update before.pc slot pc)
    (hclimbs : Climbs call before slot pc.level) :
    Ordered call after.level := by
  have hmono := level_mono hpc hclimbs.up
  constructor
  · intro leader hleader howns hpast member hlow hhigh
    by_cases hold : 4 ≤ before.level leader
    · exact (hordered.group leader hleader howns hold member hlow hhigh).trans
        (hmono member)
    · obtain rfl : leader = slot := by
        by_contra hne
        exact hold (by rwa [← level_other hpc hne])
      rw [level_self hpc] at hpast
      rcases hlow.eq_or_lt with rfl | hmore
      · rw [level_self hpc]
        omega
      · exact (hclimbs.group (by omega) hpast howns member hmore hhigh).trans
          (hmono member)
  · intro hpast cluster hcluster
    by_cases hold : 8 ≤ before.level 0
    · exact (hordered.clusters hold cluster hcluster).trans (hmono _)
    · obtain rfl : 0 = slot := by
        by_contra hne
        exact hold (by rwa [← level_other hpc hne])
      rw [level_self hpc] at hpast
      rcases Nat.eq_zero_or_pos cluster with rfl | hpos
      · rw [call.clusterFirst_zero, level_self hpc]
        omega
      · exact (hclimbs.clusters (by omega) hpast rfl cluster hcluster
          hpos).trans (hmono _)
  · intro other hother hpast
    by_cases hold : 10 ≤ before.level other
    · exact (hordered.published other hother hold).trans (hmono 0)
    · obtain rfl : other = slot := by
        by_contra hne
        exact hold (by rwa [← level_other hpc hne])
      rw [level_self hpc] at hpast
      rcases hclimbs.published (by omega) hpast with rfl | hzero
      · rwa [level_self hpc]
      · exact hzero.trans (hmono 0)
  · intro other hother hpast
    by_cases hold : 12 ≤ before.level other
    · exact (hordered.combined other hother hold).trans (hmono _)
    · obtain rfl : other = slot := by
        by_contra hne
        exact hold (by rwa [← level_other hpc hne])
      rw [level_self hpc] at hpast
      rcases hclimbs.combined (by omega) hpast with hself | hleader
      · rwa [hself, level_self hpc]
      · exact hleader.trans (hmono _)

theorem Control.move (hcontrol : Control call before)
    (hpc : after.pc = Function.update before.pc slot pc)
    (hclimbs : Climbs call before slot pc.level)
    (hshape : Shape call slot pc) (hseen : Seen call after.level slot pc) :
    Control call after where
  shape := by
    intro other hother
    by_cases hsame : other = slot
    · subst hsame
      simpa [hpc] using hshape
    · simpa [hpc, hsame] using hcontrol.shape other hother
  seen := by
    intro other hother
    by_cases hsame : other = slot
    · subst hsame
      simpa [hpc] using hseen
    · have hold := hcontrol.seen other hother
      simpa [hpc, hsame] using hold.mono (level_mono hpc hclimbs.up)
  ordered := hcontrol.ordered.climb hpc hclimbs

/-- A slot whose stamps still say what its level says. -/
theorem Stamps.move (hstamps : Stamps call before)
    (hpc : after.pc = Function.update before.pc slot pc)
    (hother : ∀ other ≠ slot, after.done other = before.done other)
    (hunstamped : pc.level < 3 → after.done slot ≤ call.epochs.epochBase)
    (hstamped : 3 ≤ pc.level → call.epochs.epochBase + 1 ≤ after.done slot)
    (hcluster : call.hierarchical = true → ∀ leader < call.participants,
      call.leader leader = leader →
        after.clusterStamp (call.cluster leader) =
          stampAt (after.level leader))
    (hpublished : after.prefixesPublished = true ↔ 10 ≤ after.level 0) :
    Stamps call after where
  unstamped := by
    intro other hbound hless
    by_cases hsame : other = slot
    · subst hsame
      exact hunstamped (by rwa [level_self hpc] at hless)
    · rw [level_other hpc hsame] at hless
      rw [hother other hsame]
      exact hstamps.unstamped other hbound hless
  stamped := by
    intro other hbound hmore
    by_cases hsame : other = slot
    · subst hsame
      exact hstamped (by rwa [level_self hpc] at hmore)
    · rw [level_other hpc hsame] at hmore
      rw [hother other hsame]
      exact hstamps.stamped other hbound hmore
  cluster := hcluster
  published := hpublished

theorem stampAt_eq {old new : ℕ} (hup : old ≤ new)
    (hcross : ¬ Crosses [7, 12] old new) : stampAt new = stampAt old := by
  have hseven : 7 ≤ new ↔ 7 ≤ old :=
    ⟨le_of_not_crosses hcross (by simp), fun hpast => hpast.trans hup⟩
  have htwelve : 12 ≤ new ↔ 12 ≤ old :=
    ⟨le_of_not_crosses hcross (by simp), fun hpast => hpast.trans hup⟩
  simp only [stampAt, hseven, htwelve]

/-- The cluster stamps of a move that passes none of their bounds. -/
theorem Stamps.cluster_quiet (hstamps : Stamps call before)
    (hpc : after.pc = Function.update before.pc slot pc)
    (hclusterStamp : after.clusterStamp = before.clusterStamp)
    (hup : before.level slot ≤ pc.level)
    (hcross : call.leader slot = slot → call.hierarchical = true →
      ¬ Crosses [7, 12] (before.level slot) pc.level) :
    call.hierarchical = true → ∀ leader < call.participants,
      call.leader leader = leader →
        after.clusterStamp (call.cluster leader) =
          stampAt (after.level leader) := by
  intro hhier leader hleader howns
  rw [hclusterStamp, hstamps.cluster hhier leader hleader howns]
  by_cases hsame : leader = slot
  · subst hsame
    rw [level_self hpc, stampAt_eq hup (hcross howns hhier)]
  · rw [level_other hpc hsame]

theorem Stamps.published_quiet (hstamps : Stamps call before)
    (hpc : after.pc = Function.update before.pc slot pc)
    (hpublished : after.prefixesPublished = before.prefixesPublished)
    (hup : before.level slot ≤ pc.level)
    (hcross : slot = 0 → ¬ Crosses [10] (before.level slot) pc.level) :
    after.prefixesPublished = true ↔ 10 ≤ after.level 0 := by
  rw [hpublished, hstamps.published]
  by_cases hsame : (0 : ℕ) = slot
  · subst hsame
    rw [level_self hpc]
    exact ⟨fun hold => hold.trans hup,
      le_of_not_crosses (hcross rfl) (by simp)⟩
  · rw [level_other hpc hsame]

theorem Stamps.quiet (hstamps : Stamps call before)
    (hslot : slot < call.participants)
    (hpc : after.pc = Function.update before.pc slot pc)
    (hdone : after.done = before.done)
    (hclusterStamp : after.clusterStamp = before.clusterStamp)
    (hpublished : after.prefixesPublished = before.prefixesPublished)
    (hup : before.level slot ≤ pc.level)
    (hthree : ¬ Crosses [3] (before.level slot) pc.level)
    (hleader : call.leader slot = slot → call.hierarchical = true →
      ¬ Crosses [7, 12] (before.level slot) pc.level)
    (hzero : slot = 0 → ¬ Crosses [10] (before.level slot) pc.level) :
    Stamps call after := by
  apply hstamps.move hpc
  · intro other _
    rw [hdone]
  · intro hless
    rw [hdone]
    exact hstamps.unstamped slot hslot (by omega)
  · intro hmore
    rw [hdone]
    exact hstamps.stamped slot hslot (le_of_not_crosses hthree (by simp) hmore)
  · exact hstamps.cluster_quiet hpc hclusterStamp hup hleader
  · exact hstamps.published_quiet hpc hpublished hup hzero

theorem Partials.quiet (hpartials : Partials call before)
    (hpc : after.pc = Function.update before.pc slot pc)
    (hsame : after.partials = before.partials)
    (htwo : ¬ Crosses [2] (before.level slot) pc.level)
    (hexpected : call.leader slot = slot → ∀ member < call.participants,
      call.leader member = slot →
        expected call member pc = expected call member (before.pc slot)) :
    Partials call after := by
  intro member hmember hwritten
  have hwas : 2 ≤ before.level member := by
    by_cases hself : member = slot
    · subst hself
      rw [level_self hpc] at hwritten
      exact le_of_not_crosses htwo (by simp) hwritten
    · rwa [level_other hpc hself] at hwritten
  rw [hsame, hpartials member hmember hwas]
  by_cases hleads : call.leader member = slot
  · have howns : call.leader slot = slot := by
      rw [← hleads, call.leader_leader hmember]
    simp [hleads, hpc, hexpected howns member hmember hleads]
  · simp [hpc, hleads]

/-- Other slots' accumulators do not see what slot 0 writes into the cluster
prefixes. -/
theorem Totals.accumulated_move (htotals : Totals call before)
    (hcontrol : Control call before)
    (hpc : after.pc = Function.update before.pc slot pc)
    (hprefixes : slot = 0 ∨ after.clusterPrefixes = before.clusterPrefixes)
    (hacc : Accumulated call after.clusterPrefixes slot pc) :
    ∀ other < call.participants,
      Accumulated call after.clusterPrefixes other (after.pc other) := by
  intro other hother
  by_cases hsame : other = slot
  · subst hsame
    simpa [hpc] using hacc
  · have hold := htotals.accumulated other hother
    have hshape := hcontrol.shape other hother
    rcases hprefixes with rfl | hprefixes
    · simp only [hpc, Function.update_of_ne hsame]
      cases hother : before.pc other <;> rw [hother] at hold hshape
      case crossReduce => exact absurd hshape.2.1 hsame
      case publishPrefixes => exact absurd hshape hsame
      all_goals exact hold
    · simpa [hpc, hsame, hprefixes] using hold

theorem Totals.quiet (htotals : Totals call before)
    (hcontrol : Control call before)
    (hpc : after.pc = Function.update before.pc slot pc)
    (hclusterTotals : after.clusterTotals = before.clusterTotals)
    (hclusterPrefixes : after.clusterPrefixes = before.clusterPrefixes)
    (hacc : after.acc = before.acc)
    (hinclusive : after.inclusiveTotal = before.inclusiveTotal)
    (haccumulated : Accumulated call before.clusterPrefixes slot pc)
    (hleader : call.leader slot = slot → call.hierarchical = true →
      ¬ Crosses [7] (before.level slot) pc.level)
    (hzero : slot = 0 → ¬ Crosses [10, 17] (before.level slot) pc.level) :
    Totals call after := by
  have hlevel : ∀ bound ∈ [10, 17], bound ≤ after.level 0 →
      bound ≤ before.level 0 :=
    fun _ hmem => level_zero_of_update hpc hzero hmem
  constructor
  · exact htotals.accumulated_move hcontrol hpc (.inr hclusterPrefixes)
      (by rwa [hclusterPrefixes])
  · intro hhier leader hbound howns hpast
    rw [hclusterTotals]
    refine htotals.totals hhier leader hbound howns ?_
    by_cases hsame : leader = slot
    · subst hsame
      rw [level_self hpc] at hpast
      exact le_of_not_crosses (hleader howns hhier) (by simp) hpast
    · rwa [level_other hpc hsame] at hpast
  · intro hhier hpast
    rw [hclusterPrefixes]
    exact htotals.prefixes hhier (hlevel 10 (by simp) hpast)
  · intro hpast
    rw [hacc]
    exact htotals.acc (hlevel 10 (by simp) hpast)
  · intro hpast hwhy
    rw [hinclusive]
    exact htotals.inclusive (hlevel 10 (by simp) hpast)
      (hwhy.imp id (hlevel 17 (by simp)))

end Moving

/-! ## The step of one slot -/

section Slot

variable {call : Call T} {trace : List (Event T)} {before after : State T}
variable {slot : ℕ} {old pc : Pc T} {event : Option (Event T)}

theorem level_of_pc (hold : before.pc slot = old) :
    before.level slot = old.level := by
  simp [State.level, hold]

theorem history_move
    (hhistory : ∀ other < call.participants,
      History call before.stopRequested other (before.pc other)
        (trace.filter fun event => event.passOf = some other))
    (hslot : slot < call.participants)
    (hpc : after.pc = Function.update before.pc slot pc)
    (hstop : after.stopRequested = before.stopRequested)
    (hevent : ∀ emitted ∈ event, emitted.passOf = some slot)
    (hmove : ∀ events,
      History call before.stopRequested slot (before.pc slot) events →
        History call before.stopRequested slot pc (events ++ event.toList)) :
    ∀ other < call.participants,
      History call after.stopRequested other (after.pc other)
        ((trace ++ event.toList).filter fun event =>
          event.passOf = some other) := by
  intro other hother
  rw [hstop, List.filter_append]
  by_cases hsame : other = slot
  · subst hsame
    have hown : event.toList.filter
        (fun event => event.passOf = some other) = event.toList := by
      rw [List.filter_eq_self]
      intro emitted hemitted
      simpa using hevent emitted (by simpa using hemitted)
    rw [hown]
    simpa [hpc] using hmove _ (hhistory other hslot)
  · have hforeign : event.toList.filter
        (fun event => event.passOf = some other) = [] := by
      rw [List.filter_eq_nil_iff]
      intro emitted hemitted
      have := hevent emitted (by simpa using hemitted)
      simpa [this] using Ne.symm hsame
    simpa [hpc, hsame, hforeign] using hhistory other hother

theorem not_allLeft (hslot : slot < call.participants)
    (hrunning : (before.pc slot).hasLeft = false) :
    before.allLeft call = false := by
  simp only [State.allLeft, List.all_eq_false, List.mem_range]
  exact ⟨slot, hslot, by simp [hrunning]⟩

/-- What a step of one slot has to show. -/
theorem Inv.move (hinv : Inv call trace before)
    (hslot : slot < call.participants)
    (hrunning : (before.pc slot).hasLeft = false)
    (hpc : after.pc = Function.update before.pc slot pc)
    (hcontrol : Control call after) (hstamps : Stamps call after)
    (hpartials : Partials call after) (htotals : Totals call after)
    (hevent : ∀ emitted ∈ event, emitted.passOf = some slot)
    (hmove : ∀ events,
      History call before.stopRequested slot (before.pc slot) events →
        History call before.stopRequested slot pc (events ++ event.toList))
    (hstop : after.stopRequested = before.stopRequested)
    (hcancelled : after.scanCancelled = true → before.stopRequested = true)
    (hcalm : after.firstException = before.firstException)
    (houtcome : after.outcome = before.outcome) :
    Inv call (trace ++ event.toList) after where
  control := hcontrol
  stamps := hstamps
  partials := hpartials
  totals := htotals
  history := history_move hinv.history hslot hpc hstop hevent hmove
  bounded := by
    intro emitted hemitted
    rcases List.mem_append.mp hemitted with hold | hnew
    · exact hinv.bounded emitted hold
    · exact ⟨slot, hslot, hevent emitted (by simpa using hnew)⟩
  cancelled := by
    rw [hstop]
    exact hcancelled
  calm := hcalm.trans hinv.calm
  outcome := by
    intro outcome hsome
    rw [houtcome] at hsome
    have hall := (hinv.outcome outcome hsome).1
    simp [not_allLeft hslot hrunning] at hall

/-- A move that stores nothing. -/
theorem Inv.quiet (hinv : Inv call trace before)
    (hslot : slot < call.participants) (hold : before.pc slot = old)
    (hrunning : old.hasLeft = false)
    (hclimbs : Climbs call before slot pc.level)
    (hshape : Shape call slot pc)
    (hseen : Seen call (before.setPc slot pc).level slot pc)
    (hself : ¬ Crosses [2, 3] old.level pc.level)
    (hleader : call.leader slot = slot → call.hierarchical = true →
      ¬ Crosses [7, 12] old.level pc.level)
    (hzero : slot = 0 → ¬ Crosses [10, 17] old.level pc.level)
    (hexpected : call.leader slot = slot → ∀ member < call.participants,
      call.leader member = slot →
        expected call member pc = expected call member old)
    (hacc : Accumulated call before.clusterPrefixes slot pc)
    (hevent : ∀ emitted ∈ event, emitted.passOf = some slot)
    (hmove : ∀ events, History call before.stopRequested slot old events →
      History call before.stopRequested slot pc (events ++ event.toList)) :
    Inv call (trace ++ event.toList) (before.setPc slot pc) := by
  have hlevel := level_of_pc hold
  have hweaken : ∀ {small large : List ℕ}, small ⊆ large →
      ¬ Crosses large old.level pc.level →
        ¬ Crosses small (before.level slot) pc.level := by
    intro small large hsubset hcross ⟨bound, hmem, hbounds⟩
    rw [hlevel] at hbounds
    exact hcross ⟨bound, hsubset hmem, hbounds⟩
  refine hinv.move hslot (by rwa [hold]) rfl ?_ ?_ ?_ ?_ ?_ ?_ ?_ ?_ ?_ ?_
  · exact hinv.control.move rfl hclimbs hshape hseen
  · exact hinv.stamps.quiet hslot rfl rfl rfl rfl hclimbs.up
      (hweaken (by simp) hself)
      (fun howns hhier => hweaken (by simp) (hleader howns hhier))
      (fun hfirst => hweaken (by simp) (hzero hfirst))
  · refine hinv.partials.quiet rfl rfl (hweaken (by simp) hself) ?_
    rwa [hold]
  · exact hinv.totals.quiet hinv.control rfl rfl rfl rfl rfl hacc
      (fun howns hhier => hweaken (by simp) (hleader howns hhier))
      (fun hfirst => hweaken (by simp) (hzero hfirst))
  · exact hevent
  · rwa [hold]
  · rfl
  · exact hinv.cancelled
  · rfl
  · rfl

end Slot

end Citor.Scan
