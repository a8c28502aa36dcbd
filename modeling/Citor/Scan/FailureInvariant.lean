import Citor.Scan.ScanCorrectness

/-!
# The invariant of a scan whose callbacks throw

Which slots' first passes throw is fixed with the call, so a slot takes either
the failure exit or the way through the engine.  Every slot climbs through
ranks; the stamps and flags follow the ranks, and a failed slot that has
stamped has captured its failure and raised `scanCancelled` before.
-/

namespace Citor.ScanFailure

open Citor.Interleaving
open Citor.DoneSlots
open Citor.Scan

variable {T : Type*}

/-- The first pass of `slot` throws. -/
def fails (call : Call T) (slot : ℕ) : Bool :=
  call.throws (.pass1 slot)

/-- The first-pass failures that the hierarchical path survives: a whole
cluster fails together with slot 0, or a failed member is screened by earlier
throws of `prefix` in both loops of its leader. -/
def Survives (call : Call T) : Prop :=
  call.hierarchical = true → ∀ slot < call.participants,
    fails call slot = true →
      (fails call 0 = true ∧ ∀ member, call.leader slot ≤ member →
          member < call.groupEnd slot → fails call member = true) ∨
        (fails call (call.leader slot) = false ∧
          (∃ earlier, call.leader slot ≤ earlier ∧ earlier < slot ∧
            call.throws (.reduce earlier) = true) ∧
          ∃ earlier, call.leader slot ≤ earlier ∧ earlier < slot ∧
            call.throws (.combine earlier) = true)

/-! ## Ranks -/

/-- How far a slot has come that is about to go on from a catch block. -/
def resumeRank : Pc T → ℕ
  | .stampFailed => 2
  | .publishTotal _ => 5
  | .publishPrefixes _ => 8
  | .stampCluster => 10
  | .stampPass2 => 15
  | _ => 0

/-- How far a program counter has come, on either way. -/
def rank : Pc T → ℕ
  | .capture _ next | .arm next => resumeRank next
  | .stampFailed => 2
  | .publishFailed => 9
  | .awaitLeft _ => 10
  | pc => pc.level

def rankOf (state : State T) (slot : ℕ) : ℕ :=
  rank (state.pc slot)

/-- Where a slot goes on from a catch block behind its first pass. -/
def Resumes (call : Call T) (slot : ℕ) : Pc T → Prop
  | .publishTotal _ => call.hierarchical = true ∧ call.leader slot = slot
  | .publishPrefixes _ => slot = 0
  | .stampCluster => call.hierarchical = true ∧ call.leader slot = slot
  | .stampPass2 => True
  | _ => False

/-- No first pass of the call throws. -/
def Calm (call : Call T) : Prop :=
  ∀ slot < call.participants, fails call slot = false

/-- Which slots get to a program counter on the way through the engine. -/
def Place (call : Call T) (slot : ℕ) : Pc T → Prop
  | .awaitPass1 member => call.leader slot = slot ∧ slot < member
  | .loadFailed => call.hierarchical = false ∧ slot = 0
  | .reduce member _ =>
      call.leader slot = slot ∧ slot ≤ member ∧
        member < call.groupEnd slot ∧
        (∀ earlier, slot ≤ earlier → earlier < member →
          call.throws (.reduce earlier) = false) ∧
        (call.hierarchical = false → Calm call)
  | .publishTotal _ => call.hierarchical = true ∧ call.leader slot = slot
  | .awaitCluster cluster =>
      call.hierarchical = true ∧ slot = 0 ∧ 1 ≤ cluster ∧
        cluster < call.numClusters
  | .crossReduce cluster _ =>
      call.hierarchical = true ∧ slot = 0 ∧ cluster < call.numClusters
  | .publishPrefixes _ => slot = 0
  | .awaitPrefixes =>
      slot ≠ 0 ∧ (call.hierarchical = true → call.leader slot = slot)
  | .combine member _ =>
      call.hierarchical = true ∧ call.leader slot = slot ∧ slot ≤ member ∧
        member < call.groupEnd slot ∧
        ∀ earlier, slot ≤ earlier → earlier < member →
          call.throws (.combine earlier) = false
  | .stampCluster => call.hierarchical = true ∧ call.leader slot = slot
  | .awaitCombined => call.hierarchical = true ∧ call.leader slot ≠ slot
  | .pollToken | .pass2Body => Calm call
  | .capture _ next | .arm next => Resumes call slot next
  | .stampFailed | .publishFailed | .awaitLeft _ => False
  | _ => True

/-- Which program counters lie on the failure exit. -/
def FailedPlace (slot : ℕ) : Pc T → Prop
  | .pass1Enter | .pass1Body | .stampFailed | .left => True
  | .capture site next => site = .pass1 slot ∧ next = .stampFailed
  | .arm next => next = .stampFailed
  | .publishFailed => slot = 0
  | .awaitLeft other => slot = 0 ∧ 1 ≤ other
  | _ => False

/-- A slot is on the way its first pass leads to. -/
def Route (call : Call T) (slot : ℕ) (pc : Pc T) : Prop :=
  (fails call slot = true → FailedPlace slot pc) ∧
    (fails call slot = false → Place call slot pc)

/-! ## The invariant -/

/-- The part of the invariant about program counters alone. -/
structure Control (call : Call T) (state : State T) : Prop where
  route : ∀ slot < call.participants, Route call slot (state.pc slot)
  seen : ∀ slot < call.participants,
    Seen call (rankOf state) slot (state.pc slot)
  /-- A leader past its wait knows its members have stamped. -/
  group : ∀ slot < call.participants, fails call slot = false →
    call.leader slot = slot → 4 ≤ rankOf state slot →
      ∀ member, slot ≤ member → member < call.groupEnd slot →
        3 ≤ rankOf state member
  clusters : fails call 0 = false → 8 ≤ rankOf state 0 →
    ∀ cluster < call.numClusters, 7 ≤ rankOf state (call.clusterFirst cluster)
  published : ∀ slot < call.participants, fails call slot = false →
    10 ≤ rankOf state slot → 10 ≤ rankOf state 0

/-- The stamps and the flag follow the ranks. -/
structure Stamps (call : Call T) (state : State T) : Prop where
  unstamped : ∀ slot < call.participants, rankOf state slot < 3 →
    state.done slot ≤ call.epochs.epochBase
  stamped : ∀ slot < call.participants, 3 ≤ rankOf state slot →
    call.epochs.epochBase + 1 ≤ state.done slot
  final : ∀ slot < call.participants, 17 ≤ rankOf state slot →
    call.epochs.epochBase + 2 ≤ state.done slot
  failed : ∀ slot < call.participants, fails call slot = true →
    3 ≤ rankOf state slot → call.epochs.epochBase + 2 ≤ state.done slot
  cluster : call.hierarchical = true → ∀ slot < call.participants,
    call.leader slot = slot → fails call slot = false →
      state.clusterStamp (call.cluster slot) = stampAt (rankOf state slot)
  published : state.prefixesPublished = true ↔ 10 ≤ rankOf state 0

/-- The failure an event hands to `firstException`. -/
def capturedSite : Event T → Option Site
  | .captured site => some site
  | _ => none

/-- A slot stands in front of the capture of its failure. -/
def Pending (call : Call T) (state : State T) : Prop :=
  ∃ slot < call.participants, ∃ site next, state.pc slot = .capture site next

/-- What has become of the failures. -/
structure Failures (call : Call T) (trace : List (Event T))
    (state : State T) : Prop where
  captured : state.firstException = (trace.filterMap capturedSite).head?
  caught : ∀ site, .captured site ∈ trace → .threw site ∈ trace
  capturing : ∀ slot < call.participants, ∀ site next,
    state.pc slot = .capture site next → .threw site ∈ trace
  threw : (∃ site, .threw site ∈ trace) →
    state.firstException ≠ none ∨ Pending call state
  thrower : ∀ slot, .threw (.pass1 slot) ∈ trace →
    slot < call.participants ∧ fails call slot = true
  /-- A failed slot on its way out has captured its failure. -/
  kept : ∀ slot < call.participants, state.pc slot = .arm .stampFailed →
    state.firstException ≠ none
  /-- A failed slot that stamps has raised the flag. -/
  raised : ∀ slot < call.participants, fails call slot = true →
    state.pc slot = .stampFailed ∨ 3 ≤ rankOf state slot →
      state.firstException ≠ none ∧ state.scanCancelled = true

/-- What the passes have done. -/
structure Passes (call : Call T) (trace : List (Event T))
    (state : State T) : Prop where
  ended : ∀ slot < call.participants, fails call slot = false →
    2 ≤ rankOf state slot → .pass1End slot ∈ trace
  seconds : ∀ slot initial, .pass2Start slot initial ∈ trace → Calm call

/-- The invariant of a scan call whose failures are survived. -/
structure Inv (call : Call T) (trace : List (Event T)) (state : State T) :
    Prop where
  control : Control call state
  stamps : Stamps call state
  failures : Failures call trace state
  passes : Passes call trace state
  outcome : ∀ outcome, state.outcome = some outcome →
    state.allLeft call = true ∧ outcome = scanOutcome state

/-! ## What the ranks say -/

section Reading

variable {call : Call T} {trace : List (Event T)} {state : State T}
variable {slot : ℕ}

/-- The leader of a cluster whose total slot 0 waits for has not failed. -/
theorem Survives.leader (hsurvives : Survives call)
    (hhier : call.hierarchical = true) (hzero : fails call 0 = false)
    (hslot : slot < call.participants) :
    fails call (call.leader slot) = false := by
  cases hfails : fails call (call.leader slot) with
  | false => rfl
  | true =>
      rcases hsurvives hhier _ (call.leader_lt hslot) hfails with
          ⟨hfirst, -⟩ | ⟨hleader, -⟩
      · simp [hzero] at hfirst
      · rw [call.leader_leader hslot] at hleader
        simp [hfails] at hleader

/-- A slot that did not fail has a leader that did not fail. -/
theorem Survives.leader_of_member (hsurvives : Survives call)
    (hhier : call.hierarchical = true) (hslot : slot < call.participants)
    (hfine : fails call slot = false) :
    fails call (call.leader slot) = false := by
  cases hfails : fails call (call.leader slot) with
  | false => rfl
  | true =>
      rcases hsurvives hhier _ (call.leader_lt hslot) hfails with
          ⟨-, hall⟩ | ⟨hleader, -⟩
      · rw [call.leader_leader hslot, call.groupEnd_leader hslot] at hall
        have := hall slot (call.leader_le hslot) (call.lt_groupEnd hslot)
        simp [hfine] at this
      · rw [call.leader_leader hslot] at hleader
        simp [hfails] at hleader

/-- The reduce loops only get to partials that were written. -/
theorem Survives.member (hsurvives : Survives call)
    (hhier : call.hierarchical = true) (hslot : slot < call.participants)
    (hfine : fails call slot = false) (hleads : call.leader slot = slot)
    {member : ℕ} (hlow : slot ≤ member) (hhigh : member < call.groupEnd slot)
    (hunscreened : (∀ earlier, slot ≤ earlier → earlier < member →
        call.throws (.reduce earlier) = false) ∨
      ∀ earlier, slot ≤ earlier → earlier < member →
        call.throws (.combine earlier) = false) :
    fails call member = false := by
  have hmember : member < call.participants :=
    hhigh.trans_le (call.groupEnd_le hslot)
  have hleader : call.leader member = slot := by
    rw [call.leader_of_mem hslot (by omega) hhigh, hleads]
  cases hfails : fails call member with
  | false => rfl
  | true =>
      rcases hsurvives hhier member hmember hfails with
          ⟨-, hall⟩ | ⟨-, ⟨reducer, hreducer⟩, ⟨combiner, hcombiner⟩⟩
      · rw [hleader] at hall
        have hself := hall slot le_rfl (by
          rw [← call.groupEnd_leader hmember, hleader]
          exact call.lt_groupEnd hslot)
        simp [hfine] at hself
      · rw [hleader] at hreducer hcombiner
        rcases hunscreened with hreduce | hcombine
        · have := hreduce reducer hreducer.1 hreducer.2.1
          simp [hreducer.2.2] at this
        · have := hcombine combiner hcombiner.1 hcombiner.2.1
          simp [hcombiner.2.2] at this

/-- Behind the published prefixes every slot has stamped its first pass,
unless slot 0 has failed. -/
theorem Control.all_stamped (hcontrol : Control call state)
    (hsurvives : Survives call) (hzero : fails call 0 = false)
    (hpast : 8 ≤ rankOf state 0) :
    ∀ peer < call.participants, 3 ≤ rankOf state peer := by
  intro peer hpeer
  have hleader := hcontrol.clusters hzero hpast (call.cluster peer)
    (call.cluster_lt hpeer)
  have hfine : fails call (call.leader peer) = false := by
    cases hhier : call.hierarchical with
    | true => exact hsurvives.leader hhier hzero hpeer
    | false => rwa [call.leader_flat hhier]
  apply hcontrol.group (call.leader peer) (call.leader_lt hpeer) hfine
    (call.leader_leader hpeer) (le_trans (by omega) hleader) peer
    (call.leader_le hpeer)
  rw [call.groupEnd_leader hpeer]
  exact call.lt_groupEnd hpeer

/-- Behind the published prefixes a failed first pass has cancelled the
call. -/
theorem Inv.calm_of_published (hinv : Inv call trace state)
    (hsurvives : Survives call) (hpublished : 10 ≤ rankOf state 0)
    (hclear : state.scanCancelled = false) : Calm call := by
  have htwo := call.two_le
  have hstamped : ∀ slot < call.participants, fails call slot = true →
      rankOf state slot < 3 := by
    intro slot hslot hfails
    by_contra hstamped
    have hraised :=
      (hinv.failures.raised slot hslot hfails (.inr (by omega))).2
    simp [hclear] at hraised
  have hzero : fails call 0 = false := by
    cases hfails : fails call 0 with
    | false => rfl
    | true =>
        have := hstamped 0 (by omega) hfails
        omega
  intro slot hslot
  cases hfails : fails call slot with
  | false => rfl
  | true =>
      have := hstamped slot hslot hfails
      have := hinv.control.all_stamped hsurvives hzero (by omega) slot hslot
      omega

end Reading

/-! ## Moving one slot -/

section Moving

variable {call : Call T} {trace : List (Event T)} {before after : State T}
variable {slot : ℕ} {pc : Pc T} {event : Option (Event T)}

theorem rank_self (hpc : after.pc = Function.update before.pc slot pc) :
    rankOf after slot = rank pc := by
  simp [rankOf, hpc]

theorem rank_other (hpc : after.pc = Function.update before.pc slot pc)
    {other : ℕ} (hother : other ≠ slot) :
    rankOf after other = rankOf before other := by
  simp [rankOf, hpc, hother]

theorem rank_mono (hpc : after.pc = Function.update before.pc slot pc)
    (hup : rankOf before slot ≤ rank pc) (other : ℕ) :
    rankOf before other ≤ rankOf after other := by
  by_cases hsame : other = slot
  · subst hsame
    rwa [rank_self hpc]
  · exact (rank_other hpc hsame).ge

/-- What the climbing slot owes when it passes a bound that the others rely
on. -/
structure Climbs (call : Call T) (before : State T) (slot new : ℕ) :
    Prop where
  up : rankOf before slot ≤ new
  group : fails call slot = false → rankOf before slot < 4 → 4 ≤ new →
    call.leader slot = slot → ∀ member, slot < member →
      member < call.groupEnd slot → 3 ≤ rankOf before member
  clusters : fails call slot = false → rankOf before slot < 8 → 8 ≤ new →
    slot = 0 → ∀ cluster < call.numClusters, 1 ≤ cluster →
      7 ≤ rankOf before (call.clusterFirst cluster)
  published : fails call slot = false → rankOf before slot < 10 → 10 ≤ new →
    slot = 0 ∨ 10 ≤ rankOf before 0

/-- Within one band nothing is owed. -/
theorem Climbs.within {new : ℕ} (hup : rankOf before slot ≤ new)
    (hcross : ¬ Crosses [4, 8, 10] (rankOf before slot) new) :
    Climbs call before slot new where
  up := hup
  group := fun _ hless hnew =>
    absurd (le_of_not_crosses hcross (by simp) hnew) (by omega)
  clusters := fun _ hless hnew =>
    absurd (le_of_not_crosses hcross (by simp) hnew) (by omega)
  published := fun _ hless hnew =>
    absurd (le_of_not_crosses hcross (by simp) hnew) (by omega)

/-- A failed slot owes nothing. -/
theorem Climbs.failed {new : ℕ} (hup : rankOf before slot ≤ new)
    (hfails : fails call slot = true) : Climbs call before slot new where
  up := hup
  group := fun hfine => by simp [hfails] at hfine
  clusters := fun hfine => by simp [hfails] at hfine
  published := fun hfine => by simp [hfails] at hfine

theorem Control.move (hcontrol : Control call before)
    (hpc : after.pc = Function.update before.pc slot pc)
    (hclimbs : Climbs call before slot (rank pc))
    (hroute : Route call slot pc) (hseen : Seen call (rankOf after) slot pc) :
    Control call after := by
  have hmono := rank_mono hpc hclimbs.up
  constructor
  · intro other hother
    by_cases hsame : other = slot
    · subst hsame
      simpa [hpc] using hroute
    · simpa [hpc, hsame] using hcontrol.route other hother
  · intro other hother
    by_cases hsame : other = slot
    · subst hsame
      simpa [hpc] using hseen
    · have hold := hcontrol.seen other hother
      simpa [hpc, hsame] using hold.mono hmono
  · intro leader hleader hfine howns hpast member hlow hhigh
    by_cases hold : 4 ≤ rankOf before leader
    · exact (hcontrol.group leader hleader hfine howns hold member hlow
        hhigh).trans (hmono member)
    · obtain rfl : leader = slot := by
        by_contra hne
        exact hold (by rwa [← rank_other hpc hne])
      rw [rank_self hpc] at hpast
      rcases hlow.eq_or_lt with rfl | hmore
      · rw [rank_self hpc]
        omega
      · exact (hclimbs.group hfine (by omega) hpast howns member hmore
          hhigh).trans (hmono member)
  · intro hfine hpast cluster hcluster
    by_cases hold : 8 ≤ rankOf before 0
    · exact (hcontrol.clusters hfine hold cluster hcluster).trans (hmono _)
    · obtain rfl : 0 = slot := by
        by_contra hne
        exact hold (by rwa [← rank_other hpc hne])
      rw [rank_self hpc] at hpast
      rcases Nat.eq_zero_or_pos cluster with rfl | hpos
      · rw [call.clusterFirst_zero, rank_self hpc]
        omega
      · exact (hclimbs.clusters hfine (by omega) hpast rfl cluster hcluster
          hpos).trans (hmono _)
  · intro other hother hfine hpast
    by_cases hold : 10 ≤ rankOf before other
    · exact (hcontrol.published other hother hfine hold).trans (hmono 0)
    · obtain rfl : other = slot := by
        by_contra hne
        exact hold (by rwa [← rank_other hpc hne])
      rw [rank_self hpc] at hpast
      rcases hclimbs.published hfine (by omega) hpast with rfl | hzero
      · rwa [rank_self hpc]
      · exact hzero.trans (hmono 0)

/-- The stamps of a move, by what it does to the moving slot's words. -/
theorem Stamps.move (hstamps : Stamps call before)
    (hpc : after.pc = Function.update before.pc slot pc)
    (hother : ∀ other ≠ slot, after.done other = before.done other)
    (hunstamped : rank pc < 3 → after.done slot ≤ call.epochs.epochBase)
    (hstamped : 3 ≤ rank pc → call.epochs.epochBase + 1 ≤ after.done slot)
    (hfinal : 17 ≤ rank pc → call.epochs.epochBase + 2 ≤ after.done slot)
    (hfailed : fails call slot = true → 3 ≤ rank pc →
      call.epochs.epochBase + 2 ≤ after.done slot)
    (hcluster : call.hierarchical = true → fails call slot = false →
      call.leader slot = slot →
        after.clusterStamp (call.cluster slot) = stampAt (rank pc))
    (hclusters : ∀ cluster, cluster ≠ call.cluster slot ∨
        fails call slot = true ∨ call.leader slot ≠ slot →
      after.clusterStamp cluster = before.clusterStamp cluster)
    (hpublished : after.prefixesPublished = true ↔ 10 ≤ rankOf after 0) :
    Stamps call after where
  unstamped := by
    intro other hbound hless
    by_cases hsame : other = slot
    · subst hsame
      exact hunstamped (by rwa [rank_self hpc] at hless)
    · rw [rank_other hpc hsame] at hless
      rw [hother other hsame]
      exact hstamps.unstamped other hbound hless
  stamped := by
    intro other hbound hmore
    by_cases hsame : other = slot
    · subst hsame
      exact hstamped (by rwa [rank_self hpc] at hmore)
    · rw [rank_other hpc hsame] at hmore
      rw [hother other hsame]
      exact hstamps.stamped other hbound hmore
  final := by
    intro other hbound hmore
    by_cases hsame : other = slot
    · subst hsame
      exact hfinal (by rwa [rank_self hpc] at hmore)
    · rw [rank_other hpc hsame] at hmore
      rw [hother other hsame]
      exact hstamps.final other hbound hmore
  failed := by
    intro other hbound hfails hmore
    by_cases hsame : other = slot
    · subst hsame
      exact hfailed hfails (by rwa [rank_self hpc] at hmore)
    · rw [rank_other hpc hsame] at hmore
      rw [hother other hsame]
      exact hstamps.failed other hbound hfails hmore
  cluster := by
    intro hhier other hbound hleads hfine
    by_cases hsame : other = slot
    · subst hsame
      rw [rank_self hpc]
      exact hcluster hhier hfine hleads
    · rw [rank_other hpc hsame, ← hstamps.cluster hhier other hbound hleads
        hfine]
      apply hclusters
      by_cases howns : call.leader slot = slot
      · left
        intro hcluster
        exact hsame (call.leader_inj hleads howns hcluster)
      · exact .inr (.inr howns)
  published := hpublished

/-- The stamps of a move that passes none of their bounds. -/
theorem Stamps.quiet (hstamps : Stamps call before)
    (hslot : slot < call.participants)
    (hpc : after.pc = Function.update before.pc slot pc)
    (hup : rankOf before slot ≤ rank pc)
    (hcross : ¬ Crosses [3, 17] (rankOf before slot) (rank pc))
    (hleader : call.hierarchical = true → fails call slot = false →
      call.leader slot = slot →
        ¬ Crosses [7, 12] (rankOf before slot) (rank pc))
    (hzero : slot = 0 → ¬ Crosses [10] (rankOf before slot) (rank pc))
    (hdone : after.done = before.done)
    (hclusterStamp : after.clusterStamp = before.clusterStamp)
    (hflag : after.prefixesPublished = before.prefixesPublished) :
    Stamps call after := by
  refine hstamps.move hpc (fun other _ => by rw [hdone]) ?_ ?_ ?_ ?_ ?_
    (fun _ _ => by rw [hclusterStamp]) ?_
  · intro hless
    rw [hdone]
    exact hstamps.unstamped slot hslot (by omega)
  · intro hmore
    rw [hdone]
    exact hstamps.stamped slot hslot
      (le_of_not_crosses hcross (by simp) hmore)
  · intro hmore
    rw [hdone]
    exact hstamps.final slot hslot (le_of_not_crosses hcross (by simp) hmore)
  · intro hfails hmore
    rw [hdone]
    exact hstamps.failed slot hslot hfails
      (le_of_not_crosses hcross (by simp) hmore)
  · intro hhier hfine hleads
    rw [hclusterStamp, hstamps.cluster hhier slot hslot hleads hfine,
      stampAt_eq hup (hleader hhier hfine hleads)]
  · rw [hflag, hstamps.published]
    by_cases hsame : (0 : ℕ) = slot
    · subst hsame
      rw [rank_self hpc]
      exact ⟨fun hmore => hmore.trans hup,
        le_of_not_crosses (hzero rfl) (by simp)⟩
    · rw [rank_other hpc hsame]

/-- The failures of a move that neither throws nor captures. -/
theorem Failures.quiet (hfailures : Failures call trace before)
    (hpc : after.pc = Function.update before.pc slot pc)
    (hfirst : after.firstException = before.firstException)
    (hcancelled : before.scanCancelled = true → after.scanCancelled = true)
    (hcapture : ∀ site next, before.pc slot ≠ .capture site next)
    (hnew : ∀ site next, pc ≠ .capture site next)
    (hevent : ∀ emitted ∈ event, capturedSite emitted = none ∧
      ∀ site, emitted ≠ .threw site)
    (hkept : pc = .arm .stampFailed → before.firstException ≠ none)
    (hraised : slot < call.participants → fails call slot = true →
      pc = .stampFailed ∨ 3 ≤ rank pc →
        before.firstException ≠ none ∧ after.scanCancelled = true) :
    Failures call (trace ++ event.toList) after where
  captured := by
    rw [hfirst, hfailures.captured, List.filterMap_append]
    cases event with
    | none => simp
    | some emitted => simp [(hevent emitted rfl).1]
  caught site hcaptured := by
    rcases List.mem_append.1 hcaptured with hold | hlast
    · exact List.mem_append_left _ (hfailures.caught site hold)
    · have hsite := (hevent (.captured site) (by simpa using hlast)).1
      simp [capturedSite] at hsite
  capturing other hother site next hat := by
    by_cases hsame : other = slot
    · subst hsame
      exact absurd (by simpa [hpc] using hat) (hnew site next)
    · rw [hpc, Function.update_of_ne hsame] at hat
      exact List.mem_append_left _
        (hfailures.capturing other hother site next hat)
  threw := by
    rintro ⟨site, hthrew⟩
    rcases List.mem_append.1 hthrew with hold | hlast
    · rw [hfirst]
      refine (hfailures.threw ⟨site, hold⟩).imp id ?_
      rintro ⟨other, hother, capturing, next, hat⟩
      refine ⟨other, hother, capturing, next, ?_⟩
      have hsame : other ≠ slot := by
        rintro rfl
        exact hcapture capturing next hat
      rwa [hpc, Function.update_of_ne hsame]
    · exact absurd rfl
        ((hevent (.threw site) (by simpa using hlast)).2 site)
  thrower other hthrew := by
    rcases List.mem_append.1 hthrew with hold | hlast
    · exact hfailures.thrower other hold
    · exact absurd rfl
        ((hevent (.threw (.pass1 other)) (by simpa using hlast)).2 _)
  kept other hother hat := by
    rw [hfirst]
    by_cases hsame : other = slot
    · subst hsame
      exact hkept (by simpa [hpc] using hat)
    · rw [hpc, Function.update_of_ne hsame] at hat
      exact hfailures.kept other hother hat
  raised other hother hfails hat := by
    rw [hfirst]
    by_cases hsame : other = slot
    · subst hsame
      rw [rank_self hpc] at hat
      exact hraised hother hfails (by simpa [hpc] using hat)
    · rw [hpc, Function.update_of_ne hsame, rank_other hpc hsame] at hat
      exact (hfailures.raised other hother hfails hat).imp id hcancelled

/-- The passes of a move. -/
theorem Passes.move (hpasses : Passes call trace before)
    (hpc : after.pc = Function.update before.pc slot pc)
    (hended : fails call slot = false → rankOf before slot < 2 →
      2 ≤ rank pc → .pass1End slot ∈ event)
    (hsecond : ∀ other initial, .pass2Start other initial ∈ event →
      Calm call) :
    Passes call (trace ++ event.toList) after where
  ended other hother hfine hmore := by
    by_cases hsame : other = slot
    · subst hsame
      rw [rank_self hpc] at hmore
      by_cases hold : 2 ≤ rankOf before other
      · exact List.mem_append_left _ (hpasses.ended other hother hfine hold)
      · refine List.mem_append_right _ ?_
        simpa using hended hfine (by omega) hmore
    · rw [rank_other hpc hsame] at hmore
      exact List.mem_append_left _ (hpasses.ended other hother hfine hmore)
  seconds other initial hstarted := by
    rcases List.mem_append.1 hstarted with hold | hlast
    · exact hpasses.seconds other initial hold
    · exact hsecond other initial (by simpa using hlast)

end Moving

end Citor.ScanFailure
