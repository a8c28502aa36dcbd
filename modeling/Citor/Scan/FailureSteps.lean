import Citor.Scan.FailureInvariant

/-!
# Every step of a failing scan keeps the invariant

Silent steps of a slot on its way through the engine share one lemma; throws,
captures and stamps have their own.
-/

namespace Citor.ScanFailure

open Citor.Interleaving
open Citor.DoneSlots
open Citor.Scan

variable {T : Type*} {call : Call T} {trace : List (Event T)}
variable {before after : State T} {slot : ℕ} {pc : Pc T}
variable {event : Option (Event T)}

/-- What a step has to keep but for the outcome. -/
structure Kept (call : Call T) (trace : List (Event T)) (state : State T) :
    Prop where
  control : Control call state
  stamps : Stamps call state
  failures : Failures call trace state
  passes : Passes call trace state

/-! ## The two ways -/

theorem Inv.fine (hinv : Inv call trace before)
    (hslot : slot < call.participants) (hpc : before.pc slot = pc)
    (hnot : ¬ FailedPlace slot pc) :
    fails call slot = false ∧ Place call slot pc := by
  have hroute := hinv.control.route slot hslot
  rw [hpc] at hroute
  cases hfails : fails call slot with
  | true => exact absurd (hroute.1 hfails) hnot
  | false => exact ⟨rfl, hroute.2 hfails⟩

theorem Inv.failed (hinv : Inv call trace before)
    (hslot : slot < call.participants) (hpc : before.pc slot = pc)
    (hnot : ¬ Place call slot pc) :
    fails call slot = true ∧ FailedPlace slot pc := by
  have hroute := hinv.control.route slot hslot
  rw [hpc] at hroute
  cases hfails : fails call slot with
  | false => exact absurd (hroute.2 hfails) hnot
  | true => exact ⟨rfl, hroute.1 hfails⟩

theorem route_fine (hfine : fails call slot = false)
    (hplace : Place call slot pc) : Route call slot pc :=
  ⟨fun hfails => by simp [hfine] at hfails, fun _ => hplace⟩

theorem route_failed (hfails : fails call slot = true)
    (hplace : FailedPlace slot pc) : Route call slot pc :=
  ⟨fun _ => hplace, fun hfine => by simp [hfails] at hfine⟩

theorem not_calm (hslot : slot < call.participants)
    (hfails : fails call slot = true) : ¬ Calm call := by
  intro hcalm
  simp [hcalm slot hslot] at hfails

/-! ## Silent steps -/

/-- A step that stamps, throws and captures nothing. -/
structure Silent (slot : ℕ) (pc : Pc T) (before after : State T) : Prop where
  pc : after.pc = Function.update before.pc slot pc
  done : after.done = before.done
  clusterStamp : after.clusterStamp = before.clusterStamp
  flag : after.prefixesPublished = before.prefixesPublished
  firstException : after.firstException = before.firstException
  scanCancelled : before.scanCancelled = true → after.scanCancelled = true

theorem silent_setPc : Silent slot pc before (before.setPc slot pc) :=
  ⟨rfl, rfl, rfl, rfl, rfl, id⟩

/-- A silent step of a slot whose first pass returned. -/
theorem Inv.silent (hinv : Inv call trace before)
    (hslot : slot < call.participants) (hfine : fails call slot = false)
    (hpast : 2 ≤ rankOf before slot) (hsilent : Silent slot pc before after)
    (hclimbs : Climbs call before slot (rank pc))
    (hplace : Place call slot pc) (hseen : Seen call (rankOf after) slot pc)
    (hcross : ¬ Crosses [3, 17] (rankOf before slot) (rank pc))
    (hleader : call.hierarchical = true → call.leader slot = slot →
      ¬ Crosses [7, 12] (rankOf before slot) (rank pc))
    (hzero : slot = 0 → ¬ Crosses [10] (rankOf before slot) (rank pc))
    (hcapture : ∀ site next, before.pc slot ≠ .capture site next)
    (hnew : ∀ site next, pc ≠ .capture site next)
    (hevent : ∀ emitted ∈ event, capturedSite emitted = none ∧
      ∀ site, emitted ≠ .threw site)
    (hsecond : ∀ other initial, .pass2Start other initial ∈ event →
      Calm call) :
    Kept call (trace ++ event.toList) after where
  control := hinv.control.move hsilent.pc hclimbs (route_fine hfine hplace)
    hseen
  stamps := hinv.stamps.quiet hslot hsilent.pc hclimbs.up hcross
    (fun hhier _ => hleader hhier) hzero hsilent.done hsilent.clusterStamp
    hsilent.flag
  failures := by
    refine hinv.failures.quiet hsilent.pc hsilent.firstException
      hsilent.scanCancelled hcapture hnew hevent ?_ ?_
    · rintro rfl
      exact absurd hplace (by simp [Place, Resumes])
    · intro _ hfails
      simp [hfine] at hfails
  passes := hinv.passes.move hsilent.pc (fun _ hless => by omega) hsecond

/-! ## Throws and captures -/

/-- A callback throws. -/
theorem Failures.throwing {site : Site} {next : Pc T}
    (hfailures : Failures call trace before)
    (hslot : slot < call.participants)
    (hcapture : ∀ site next, before.pc slot ≠ .capture site next)
    (hsilent : Silent slot (.capture site next) before after)
    (hthrower : ∀ other, site = .pass1 other →
      other = slot ∧ fails call slot = true)
    (hrank : fails call slot = true → resumeRank next < 3) :
    Failures call (trace ++ [.threw site]) after := by
  have hpc := hsilent.pc
  refine ⟨?_, ?_, ?_, ?_, ?_, ?_, ?_⟩
  · rw [hsilent.firstException, hfailures.captured]
    simp [capturedSite]
  · intro caught hcaught
    exact List.mem_append_left _ (hfailures.caught caught (by
      simpa using hcaught))
  · intro other hother capturing after' hat
    by_cases hsame : other = slot
    · subst hsame
      rw [hpc, Function.update_self] at hat
      obtain ⟨rfl, -⟩ : site = capturing ∧ next = after' := by
        simpa using hat
      simp
    · rw [hpc, Function.update_of_ne hsame] at hat
      exact List.mem_append_left _
        (hfailures.capturing other hother capturing after' hat)
  · intro _
    exact .inr ⟨slot, hslot, site, next, by simp [hpc]⟩
  · intro other hthrew
    rcases List.mem_append.1 hthrew with hold | hlast
    · exact hfailures.thrower other hold
    · obtain ⟨rfl, hfails⟩ := hthrower other (by simpa using Eq.symm (by
        simpa using hlast))
      exact ⟨hslot, hfails⟩
  · intro other hother hat
    rw [hsilent.firstException]
    by_cases hsame : other = slot
    · subst hsame
      simp [hpc] at hat
    · rw [hpc, Function.update_of_ne hsame] at hat
      exact hfailures.kept other hother hat
  · intro other hother hfails hat
    rw [hsilent.firstException]
    by_cases hsame : other = slot
    · subst hsame
      have hlow := hrank hfails
      rw [rank_self hpc] at hat
      simp only [hpc, Function.update_self, reduceCtorEq, false_or, rank]
        at hat
      omega
    · rw [hpc, Function.update_of_ne hsame, rank_other hpc hsame] at hat
      exact (hfailures.raised other hother hfails hat).imp id
        hsilent.scanCancelled

/-- A callback of a slot throws whose first pass returned. -/
theorem Inv.throwing {site : Site} {next : Pc T}
    (hinv : Inv call trace before) (hslot : slot < call.participants)
    (hfine : fails call slot = false) (hpast : 2 ≤ rankOf before slot)
    (hcapture : ∀ site next, before.pc slot ≠ .capture site next)
    (hsilent : Silent slot (.capture site next) before after)
    (hsite : ∀ other, site ≠ .pass1 other)
    (hclimbs : Climbs call before slot (resumeRank next))
    (hresumes : Resumes call slot next)
    (hcross : ¬ Crosses [3, 17] (rankOf before slot) (resumeRank next))
    (hleader : call.hierarchical = true → call.leader slot = slot →
      ¬ Crosses [7, 12] (rankOf before slot) (resumeRank next))
    (hzero : slot = 0 →
      ¬ Crosses [10] (rankOf before slot) (resumeRank next)) :
    Kept call (trace ++ [.threw site]) after where
  control := hinv.control.move hsilent.pc hclimbs
    (route_fine hfine hresumes) trivial
  stamps := hinv.stamps.quiet hslot hsilent.pc hclimbs.up hcross
    (fun hhier _ => hleader hhier) hzero hsilent.done hsilent.clusterStamp
    hsilent.flag
  failures := hinv.failures.throwing hslot hcapture hsilent
    (fun other hother => absurd hother (hsite other))
    (fun hfails => by simp [hfine] at hfails)
  passes :=
    show Passes call (trace ++ (some (Event.threw site)).toList) after from
      hinv.passes.move hsilent.pc (fun _ hless => by omega) (by simp)

/-- `captureFirstException`, in either way. -/
theorem capture_kept {site : Site} {next : Pc T}
    (hinv : Inv call trace before) (hslot : slot < call.participants)
    (hpc : before.pc slot = .capture site next)
    (hstep : stepSlot call before slot = some (after, event)) :
    Kept call (trace ++ event.toList) after := by
  obtain ⟨rfl, rfl⟩ := by simpa [stepSlot, hpc] using hstep
  have hthrew := hinv.failures.capturing slot hslot site next hpc
  have hroute := hinv.control.route slot hslot
  rw [hpc] at hroute
  have hfirst := captureFirstException_ne_none before.firstException site
  have hrank : rankOf before slot = resumeRank next := by
    simp [rankOf, hpc, rank]
  have hlow : fails call slot = true → resumeRank next = 2 := by
    intro hfails
    rw [(hroute.1 hfails).2]
    rfl
  have hmove : (({ before with
      firstException := captureFirstException before.firstException site
      }.setPc slot (.arm next)).pc) =
      Function.update before.pc slot (.arm next) := rfl
  refine ⟨?_, ?_, ?_, ?_⟩
  · refine hinv.control.move hmove (.within (by rw [hrank]; exact le_rfl) ?_)
      ⟨fun hfails => (hroute.1 hfails).2, fun hfine => hroute.2 hfine⟩ trivial
    rintro ⟨bound, -, hless, hmore⟩
    simp only [hrank, rank] at hless hmore
    omega
  · refine hinv.stamps.quiet hslot hmove (by rw [hrank]; exact le_rfl) ?_ ?_ ?_
      rfl rfl rfl
    all_goals
      intros
      rintro ⟨bound, -, hless, hmore⟩
      simp only [hrank, rank] at hless hmore
      omega
  · refine ⟨?_, ?_, ?_, fun _ => .inl hfirst, ?_, fun _ _ _ => hfirst, ?_⟩
    · have hold := hinv.failures.captured
      cases hbefore : before.firstException with
      | none =>
          have hnil : trace.filterMap capturedSite = [] := by
            rw [← List.head?_eq_none_iff, ← hold, hbefore]
          simp [State.setPc, captureFirstException, hnil, capturedSite]
      | some first =>
          rw [hbefore] at hold
          simp [State.setPc, captureFirstException, List.head?_append, ← hold]
    · intro caught hcaught
      rcases List.mem_append.1 hcaught with hold | hnew
      · exact List.mem_append_left _ (hinv.failures.caught caught hold)
      · obtain rfl : caught = site := by simpa using hnew
        exact List.mem_append_left _ hthrew
    · intro other hother capturing after hat
      by_cases hsame : other = slot
      · subst hsame
        simp [State.setPc] at hat
      · refine List.mem_append_left _
          (hinv.failures.capturing other hother capturing after ?_)
        simpa [State.setPc, hsame] using hat
    · intro other hthrown
      exact hinv.failures.thrower other (by simpa using hthrown)
    · intro other hother hfails hat
      refine ⟨hfirst, ?_⟩
      by_cases hsame : other = slot
      · subst hsame
        have htwo := hlow hfails
        rw [rank_self hmove] at hat
        simp only [rank, htwo, State.setPc, Function.update_self,
          reduceCtorEq, false_or] at hat
        omega
      · rw [rank_other hmove hsame] at hat
        exact (hinv.failures.raised other hother hfails
          (by simpa [State.setPc, hsame] using hat)).2
  · refine hinv.passes.move hmove (fun hfine hless hmore => ?_) (by simp)
    simp only [hrank, rank] at hless hmore
    omega

/-- The store of `scanCancelled` behind a capture. -/
theorem arm_kept {next : Pc T} (hinv : Inv call trace before)
    (hslot : slot < call.participants) (hpc : before.pc slot = .arm next)
    (hstep : stepSlot call before slot = some (after, event)) :
    Kept call (trace ++ event.toList) after := by
  obtain ⟨rfl, rfl⟩ := by simpa [stepSlot, hpc] using hstep
  have hroute := hinv.control.route slot hslot
  rw [hpc] at hroute
  have hrank : rankOf before slot = resumeRank next := by
    simp [rankOf, hpc, rank]
  have hsilent : Silent slot next before
      ({ before with scanCancelled := true }.setPc slot next) :=
    ⟨rfl, rfl, rfl, rfl, rfl, fun _ => rfl⟩
  cases hfails : fails call slot with
  | true =>
      obtain rfl : next = .stampFailed := hroute.1 hfails
      have hfirst := hinv.failures.kept slot hslot hpc
      refine ⟨?_, ?_, ?_, ?_⟩
      · exact hinv.control.move hsilent.pc (.failed (by simp [hrank, rank,
          resumeRank]) hfails) (route_failed hfails trivial) trivial
      · exact hinv.stamps.quiet hslot hsilent.pc
          (by simp [hrank, rank, resumeRank])
          (by simp [Crosses, hrank, rank, resumeRank])
          (by simp [Crosses, hrank, rank, resumeRank])
          (by simp [Crosses, hrank, rank, resumeRank]) rfl rfl rfl
      · exact hinv.failures.quiet hsilent.pc rfl hsilent.scanCancelled
          (by simp [hpc]) (by simp) (by simp) (by simp)
          (fun _ _ _ => ⟨hfirst, rfl⟩)
      · exact hinv.passes.move hsilent.pc
          (fun hfine => by simp [hfails] at hfine) (by simp)
  | false =>
      have hresumes : Resumes call slot next := hroute.2 hfails
      cases next with
      | publishTotal localAcc =>
          refine hinv.silent hslot hfails (by simp [hrank, resumeRank])
            hsilent (.within ?_ ?_) hresumes trivial ?_ ?_ ?_ (by simp [hpc])
            (by simp) (by simp) (by simp) <;>
            simp [Crosses, hrank, rank, resumeRank, Pc.level]
      | publishPrefixes acc =>
          refine hinv.silent hslot hfails (by simp [hrank, resumeRank])
            hsilent (.within ?_ ?_) hresumes trivial ?_ ?_ ?_ (by simp [hpc])
            (by simp) (by simp) (by simp) <;>
            simp [Crosses, hrank, rank, resumeRank, Pc.level]
      | stampCluster =>
          refine hinv.silent hslot hfails (by simp [hrank, resumeRank])
            hsilent (.within ?_ ?_) hresumes trivial ?_ ?_ ?_ (by simp [hpc])
            (by simp) (by simp) (by simp) <;>
            simp [Crosses, hrank, rank, resumeRank, Pc.level]
      | stampPass2 =>
          refine hinv.silent hslot hfails (by simp [hrank, resumeRank])
            hsilent (.within ?_ ?_) trivial trivial ?_ ?_ ?_ (by simp [hpc])
            (by simp) (by simp) (by simp) <;>
            simp [Crosses, hrank, rank, resumeRank, Pc.level]
      | _ => exact absurd hresumes (by simp [Resumes])

/-! ## The first pass -/

theorem pass1Enter_kept (hinv : Inv call trace before)
    (hslot : slot < call.participants) (hpc : before.pc slot = .pass1Enter)
    (hstep : stepSlot call before slot = some (after, event)) :
    Kept call (trace ++ event.toList) after := by
  obtain ⟨rfl, rfl⟩ := by simpa [stepSlot, hpc] using hstep
  have hrank : rankOf before slot = 0 := by simp [rankOf, hpc, rank, Pc.level]
  have hsilent : Silent slot .pass1Body before
      (before.setPc slot .pass1Body) := silent_setPc
  refine ⟨?_, ?_, ?_, ?_⟩
  · refine hinv.control.move hsilent.pc (.within ?_ ?_)
      ⟨fun _ => trivial, fun _ => trivial⟩ trivial <;>
      simp [Crosses, hrank, rank, Pc.level]
  · refine hinv.stamps.quiet hslot hsilent.pc ?_ ?_ ?_ ?_ rfl rfl rfl <;>
      simp [Crosses, hrank, rank, Pc.level]
  · exact hinv.failures.quiet hsilent.pc rfl id (by simp [hpc]) (by simp)
      (by simp [capturedSite]) (by simp) (by simp [rank, Pc.level])
  · exact hinv.passes.move hsilent.pc
      (fun _ _ hmore => by simp [rank, Pc.level] at hmore) (by simp)

theorem pass1Body_kept (hinv : Inv call trace before)
    (hslot : slot < call.participants) (hpc : before.pc slot = .pass1Body)
    (hstep : stepSlot call before slot = some (after, event)) :
    Kept call (trace ++ event.toList) after := by
  have hrank : rankOf before slot = 1 := by simp [rankOf, hpc, rank, Pc.level]
  simp only [stepSlot, hpc] at hstep
  split at hstep
  next hthrows =>
    obtain ⟨rfl, rfl⟩ := by simpa using hstep
    have hfails : fails call slot = true := hthrows
    have hsilent : Silent slot (.capture (.pass1 slot) .stampFailed) before
        (before.setPc slot (.capture (.pass1 slot) .stampFailed)) :=
      silent_setPc
    refine ⟨?_, ?_, ?_, ?_⟩
    · exact hinv.control.move hsilent.pc
        (.failed (by simp [hrank, rank, resumeRank]) hfails)
        (route_failed hfails ⟨rfl, rfl⟩) trivial
    · refine hinv.stamps.quiet hslot hsilent.pc ?_ ?_ ?_ ?_ rfl rfl rfl <;>
        simp [Crosses, hrank, rank, resumeRank]
    · exact hinv.failures.throwing hslot (by simp [hpc]) hsilent
        (fun other hother => ⟨by simpa using hother.symm, hfails⟩)
        (fun _ => Nat.lt_succ_self 2)
    · exact hinv.passes.move hsilent.pc
        (fun hfine => by simp [hfails] at hfine) (by simp)
  next hreturns =>
    obtain ⟨rfl, rfl⟩ := by simpa using hstep
    have hfine : fails call slot = false := by simpa [fails] using hreturns
    have hsilent : Silent slot .stampPass1 before
        ((before.setPartial slot (call.partialOf slot)).setPc slot
          .stampPass1) := ⟨rfl, rfl, rfl, rfl, rfl, id⟩
    refine ⟨?_, ?_, ?_, ?_⟩
    · refine hinv.control.move hsilent.pc (.within ?_ ?_)
        (route_fine hfine trivial) trivial <;>
        simp [Crosses, hrank, rank, Pc.level]
    · refine hinv.stamps.quiet hslot hsilent.pc ?_ ?_ ?_ ?_ rfl rfl rfl <;>
        simp [Crosses, hrank, rank, Pc.level]
    · exact hinv.failures.quiet hsilent.pc rfl id (by simp [hpc]) (by simp)
        (by simp [capturedSite]) (by simp)
        (fun _ hfails => by simp [hfine] at hfails)
    · exact hinv.passes.move hsilent.pc (fun _ _ _ => by simp) (by simp)

/-! ## Stamps of a slot whose first pass returned -/

/-- A step that stores a stamp or the flag. -/
theorem Inv.shown (pc : Pc T) (hinv : Inv call trace before)
    (hfine : fails call slot = false) (hpast : 2 ≤ rankOf before slot)
    (hpc : after.pc = Function.update before.pc slot pc)
    (hfirst : after.firstException = before.firstException)
    (hcancelled : after.scanCancelled = before.scanCancelled)
    (hclimbs : Climbs call before slot (rank pc))
    (hplace : Place call slot pc) (hseen : Seen call (rankOf after) slot pc)
    (hstamps : Stamps call after)
    (hcapture : ∀ site next, before.pc slot ≠ .capture site next)
    (hnew : ∀ site next, pc ≠ .capture site next) :
    Kept call (trace ++ (none : Option (Event T)).toList) after where
  control := hinv.control.move hpc hclimbs (route_fine hfine hplace) hseen
  stamps := hstamps
  failures := by
    refine hinv.failures.quiet hpc hfirst (fun hset => hcancelled ▸ hset)
      hcapture hnew (by simp) ?_ ?_
    · rintro rfl
      exact absurd hplace (by simp [Place, Resumes])
    · intro _ hfails
      simp [hfine] at hfails
  passes := hinv.passes.move hpc (fun _ hless => by omega) (by simp)

theorem afterPass1_cases (call : Call T) (slot : ℕ) :
    (call.leader slot = slot ∧ afterPass1 call slot =
        .awaitPass1 (slot + 1)) ∨
      (call.leader slot ≠ slot ∧ call.hierarchical = true ∧
        afterPass1 call slot = .awaitCombined) ∨
      (call.leader slot ≠ slot ∧ call.hierarchical = false ∧
        afterPass1 call slot = .awaitPrefixes) := by
  unfold afterPass1 nextMember
  by_cases hleads : call.leader slot = slot
  · simp [hleads]
  · cases hhier : call.hierarchical <;> simp [hleads]

theorem stampPass1_kept (hinv : Inv call trace before)
    (hslot : slot < call.participants) (hpc : before.pc slot = .stampPass1)
    (hstep : stepSlot call before slot = some (after, event)) :
    Kept call (trace ++ event.toList) after := by
  obtain ⟨hfine, -⟩ := hinv.fine hslot hpc (by simp [FailedPlace])
  have hrank : rankOf before slot = 2 := by simp [rankOf, hpc, rank, Pc.level]
  obtain ⟨rfl, rfl⟩ := by simpa [stepSlot, hpc] using hstep
  have hmove : ((before.stamp slot (call.epochs.epochBase + 1)).setPc slot
      (afterPass1 call slot)).pc =
      Function.update before.pc slot (afterPass1 call slot) := rfl
  have hflag := hinv.stamps.published
  have hstamps : rank (afterPass1 call slot) < 10 →
      3 ≤ rank (afterPass1 call slot) →
      (call.leader slot = slot → rank (afterPass1 call slot) < 7) →
      Stamps call ((before.stamp slot (call.epochs.epochBase + 1)).setPc slot
        (afterPass1 call slot)) := by
    intro hten hthree hseven
    refine hinv.stamps.move hmove ?_ (fun _ => by omega) ?_ (fun _ => by omega)
      (fun hfails => by simp [hfine] at hfails) ?_ (fun _ _ => rfl) ?_
    · intro other hother
      simp [State.setPc, State.stamp, hother]
    · simp [State.setPc, State.stamp]
    · intro hhier hfine hleads
      have hold := hinv.stamps.cluster hhier slot hslot hleads hfine
      have := hseven hleads
      rw [hrank] at hold
      simp only [State.setPc, State.stamp]
      rw [hold, stampAt, stampAt]
      repeat' split
      all_goals omega
    · simp only [State.setPc, State.stamp]
      rw [hflag]
      by_cases hsame : (0 : ℕ) = slot
      · subst hsame
        simp only [rankOf, Function.update_self]
        simp only [rankOf] at hrank
        omega
      · simp [rankOf, hsame]
  obtain ⟨hleads, hnext⟩ | ⟨hfollows, hhier, hnext⟩ |
      ⟨hfollows, hflat, hnext⟩ := afterPass1_cases call slot
  · rw [hnext] at hstamps hmove ⊢
    refine hinv.shown _ hfine (by omega) hmove rfl rfl
      (.within ?_ ?_) ⟨hleads, Nat.lt_succ_self slot⟩ ?_ (hstamps ?_ ?_ ?_)
      (by simp [hpc]) (by simp)
    · simp [hrank, rank, Pc.level]
    · simp [Crosses, hrank, rank, Pc.level]
    · intro other hlow hless _
      obtain rfl : other = slot := by omega
      rw [rank_self hmove]
      simp [rank, Pc.level]
    · simp [rank, Pc.level]
    · simp [rank, Pc.level]
    · simp [rank, Pc.level]
  · rw [hnext] at hstamps hmove ⊢
    have hne : slot ≠ 0 := by
      rintro rfl
      exact hfollows call.leader_zero
    refine hinv.shown _ hfine (by omega) hmove rfl rfl ⟨?_, ?_,
      ?_, ?_⟩ ⟨hhier, hfollows⟩ trivial (hstamps ?_ ?_ ?_) (by simp [hpc])
      (by simp)
    · simp [hrank, rank, Pc.level]
    · exact fun _ _ _ hleads => absurd hleads hfollows
    · exact fun _ _ _ hzero => absurd hzero hne
    · exact fun _ _ hten => absurd hten (by simp [rank, Pc.level])
    · simp [rank, Pc.level]
    · simp [rank, Pc.level]
    · exact fun hleads => absurd hleads hfollows
  · rw [hnext] at hstamps hmove ⊢
    have hne : slot ≠ 0 := by
      rintro rfl
      exact hfollows call.leader_zero
    refine hinv.shown _ hfine (by omega) hmove rfl rfl ⟨?_, ?_,
      ?_, ?_⟩ ⟨hne, fun hhier => by simp [hflat] at hhier⟩ trivial
      (hstamps ?_ ?_ ?_) (by simp [hpc]) (by simp)
    · simp [hrank, rank, Pc.level]
    · exact fun _ _ _ hleads => absurd hleads hfollows
    · exact fun _ _ _ hzero => absurd hzero hne
    · exact fun _ _ hten => absurd hten (by simp [rank, Pc.level])
    · simp [rank, Pc.level]
    · simp [rank, Pc.level]
    · exact fun hleads => absurd hleads hfollows

/-- A stamp or flag store that passes neither 3 nor 17. -/
theorem Stamps.shown (pc : Pc T) (hstamps : Stamps call before)
    (hslot : slot < call.participants)
    (hpc : after.pc = Function.update before.pc slot pc)
    (hup : rankOf before slot ≤ rank pc)
    (hcross : ¬ Crosses [3, 17] (rankOf before slot) (rank pc))
    (hdone : after.done = before.done)
    (hcluster : call.hierarchical = true → fails call slot = false →
      call.leader slot = slot →
        after.clusterStamp (call.cluster slot) = stampAt (rank pc))
    (hclusters : ∀ cluster, cluster ≠ call.cluster slot ∨
        fails call slot = true ∨ call.leader slot ≠ slot →
      after.clusterStamp cluster = before.clusterStamp cluster)
    (hpublished : after.prefixesPublished = true ↔ 10 ≤ rankOf after 0) :
    Stamps call after := by
  refine hstamps.move hpc (fun other _ => by rw [hdone]) ?_ ?_ ?_ ?_ hcluster
    hclusters hpublished
  · intro hless
    rw [hdone]
    exact hstamps.unstamped slot hslot (by omega)
  · intro hmore
    rw [hdone]
    exact hstamps.stamped slot hslot
      (le_of_not_crosses hcross (by simp) hmore)
  · intro hmore
    rw [hdone]
    exact hstamps.final slot hslot (le_of_not_crosses hcross (by simp) hmore)
  · intro hfails hmore
    rw [hdone]
    exact hstamps.failed slot hslot hfails
      (le_of_not_crosses hcross (by simp) hmore)

/-- The flag is untouched by a slot that stays on its side of 10. -/
theorem Stamps.flag_kept (slot : ℕ) (pc : Pc T)
    (hstamps : Stamps call before)
    (hpc : after.pc = Function.update before.pc slot pc)
    (hflag : after.prefixesPublished = before.prefixesPublished)
    (hzero : slot = 0 → (10 ≤ rank pc ↔ 10 ≤ rankOf before 0)) :
    after.prefixesPublished = true ↔ 10 ≤ rankOf after 0 := by
  rw [hflag, hstamps.published]
  by_cases hsame : (0 : ℕ) = slot
  · subst hsame
    rw [rank_self hpc, hzero rfl]
  · rw [rank_other hpc hsame]

theorem publishTotal_kept {localAcc : T} (hinv : Inv call trace before)
    (hslot : slot < call.participants)
    (hpc : before.pc slot = .publishTotal localAcc)
    (hstep : stepSlot call before slot = some (after, event)) :
    Kept call (trace ++ event.toList) after := by
  obtain ⟨hfine, hhier, hleads⟩ := hinv.fine hslot hpc (by simp [FailedPlace])
  have hrank : rankOf before slot = 6 := by simp [rankOf, hpc, rank, Pc.level]
  simp only [stepSlot, hpc, Option.some.injEq, Prod.mk.injEq] at hstep
  obtain ⟨rfl, rfl⟩ := hstep
  have hstamps : ∀ {next : Pc T}, 7 ≤ rank next → rank next < 10 →
      Stamps call (({ before with
        clusterTotals := Function.update before.clusterTotals
          (call.cluster slot) localAcc }.stampClusterOf
        (call.cluster slot) 1).setPc slot next) := by
    intro next hseven hten
    refine hinv.stamps.shown next hslot rfl (by omega) ?_ rfl ?_ ?_
      (hinv.stamps.flag_kept slot next rfl rfl ?_)
    · rintro ⟨bound, hmem, hless, hmore⟩
      simp only [List.mem_cons, List.not_mem_nil, or_false] at hmem
      omega
    · intro _ _ _
      have htwelve : ¬ 12 ≤ rank next := by omega
      simp [State.setPc, State.stampClusterOf, stampAt, hseven, htwelve]
    · intro cluster hcluster
      rcases hcluster with hne | hfails | hfollows
      · simp [State.setPc, State.stampClusterOf, hne]
      · simp [hfine] at hfails
      · exact absurd hleads hfollows
    · rintro rfl
      omega
  by_cases hzero : slot = 0
  · rw [if_pos hzero]
    unfold nextCluster
    by_cases hmore : 1 < call.numClusters
    · rw [if_pos hmore] at *
      refine hinv.shown (.awaitCluster 1) hfine (by omega) rfl rfl
        rfl (.within ?_ ?_) ⟨hhier, hzero, le_rfl, hmore⟩ ?_ (hstamps ?_ ?_)
        (by simp [hpc]) (by simp)
      · simp [hrank, rank, Pc.level]
      · simp [Crosses, hrank, rank, Pc.level]
      · intro other hother
        obtain rfl : other = 0 := by omega
        rw [call.clusterFirst_zero]
        subst hzero
        simp [rankOf, State.setPc, rank, Pc.level]
      · simp [rank, Pc.level]
      · simp [rank, Pc.level]
    · rw [if_neg hmore] at *
      refine hinv.shown (.crossReduce 0 call.identity) hfine
        (by omega) rfl rfl rfl ⟨?_, ?_, ?_, ?_⟩
        ⟨hhier, hzero, call.numClusters_pos⟩ trivial (hstamps ?_ ?_)
        (by simp [hpc]) (by simp)
      · simp [hrank, rank, Pc.level]
      · exact fun _ hless => by omega
      · intro _ _ _ _ cluster hcluster hone
        omega
      · exact fun _ _ hten => absurd hten (by simp [rank, Pc.level])
      · simp [rank, Pc.level]
      · simp [rank, Pc.level]
  · rw [if_neg hzero]
    refine hinv.shown .awaitPrefixes hfine (by omega) rfl rfl
      rfl ⟨?_, ?_, ?_, ?_⟩ ⟨hzero, fun _ => hleads⟩ trivial (hstamps ?_ ?_)
      (by simp [hpc]) (by simp)
    · simp [hrank, rank, Pc.level]
    · exact fun _ hless => by omega
    · exact fun _ _ _ hslotZero => absurd hslotZero hzero
    · exact fun _ _ hten => absurd hten (by simp [rank, Pc.level])
    · simp [rank, Pc.level]
    · simp [rank, Pc.level]

theorem publishPrefixes_kept {acc : T} (hinv : Inv call trace before)
    (hslot : slot < call.participants)
    (hpc : before.pc slot = .publishPrefixes acc)
    (hstep : stepSlot call before slot = some (after, event)) :
    Kept call (trace ++ event.toList) after := by
  obtain ⟨hfine, hzero⟩ := hinv.fine hslot hpc (by simp [FailedPlace])
  have hrank : rankOf before slot = 9 := by simp [rankOf, hpc, rank, Pc.level]
  simp only [stepSlot, hpc, Option.some.injEq, Prod.mk.injEq] at hstep
  obtain ⟨rfl, rfl⟩ := hstep
  have hzero' : slot = 0 := hzero
  subst hzero'
  unfold afterPublished
  cases hhier : call.hierarchical with
  | true =>
      simp only [if_true]
      refine hinv.shown (.combine 0 _) hfine (by omega) rfl rfl rfl
        ⟨?_, ?_, ?_, fun _ _ _ => .inl rfl⟩ ?_ trivial ?_ (by simp [hpc])
        (by simp)
      · simp [hrank, rank, Pc.level]
      · exact fun _ hless => by omega
      · exact fun _ hless => by omega
      · refine ⟨hhier, call.leader_zero, le_rfl, call.lt_groupEnd hslot, ?_⟩
        intro earlier _ hless
        omega
      · refine hinv.stamps.shown (.combine 0 _) hslot rfl ?_ ?_ rfl ?_
          (fun _ _ => rfl) ?_
        · simp [hrank, rank, Pc.level]
        · simp [Crosses, hrank, rank, Pc.level]
        · intro _ _ hleads
          have hold := hinv.stamps.cluster hhier 0 hslot hleads hfine
          rw [hrank] at hold
          exact hold
        · simp [rankOf, State.setPc, rank, Pc.level]
  | false =>
      simp only [Bool.false_eq_true, if_false]
      refine hinv.shown .loadCancelled hfine (by omega) rfl rfl rfl
        ⟨?_, ?_, ?_, fun _ _ _ => .inl rfl⟩ trivial trivial ?_
        (by simp [hpc]) (by simp)
      · simp [hrank, rank, Pc.level]
      · exact fun _ hless => by omega
      · exact fun _ hless => by omega
      · refine hinv.stamps.shown .loadCancelled hslot rfl ?_ ?_ rfl ?_
          (fun _ _ => rfl) ?_
        · simp [hrank, rank, Pc.level]
        · simp [Crosses, hrank, rank, Pc.level]
        · intro hflat
          simp [hhier] at hflat
        · simp [rankOf, State.setPc, rank, Pc.level]

theorem stampCluster_kept (hinv : Inv call trace before)
    (hslot : slot < call.participants) (hpc : before.pc slot = .stampCluster)
    (hstep : stepSlot call before slot = some (after, event)) :
    Kept call (trace ++ event.toList) after := by
  obtain ⟨hfine, hhier, hleads⟩ := hinv.fine hslot hpc (by simp [FailedPlace])
  have hrank : rankOf before slot = 11 := by
    simp [rankOf, hpc, rank, Pc.level]
  obtain ⟨rfl, rfl⟩ := by simpa [stepSlot, hpc] using hstep
  refine hinv.shown .loadCancelled hfine (by omega) rfl rfl rfl
    (.within ?_ ?_) trivial trivial ?_ (by simp [hpc]) (by simp)
  · simp [hrank, rank, Pc.level]
  · simp [Crosses, hrank, rank, Pc.level]
  · refine hinv.stamps.shown .loadCancelled hslot rfl ?_ ?_ rfl ?_ ?_
      (hinv.stamps.flag_kept slot .loadCancelled rfl rfl ?_)
    · simp [hrank, rank, Pc.level]
    · simp [Crosses, hrank, rank, Pc.level]
    · intro _ _ _
      simp [State.setPc, State.stampClusterOf, rank, Pc.level, stampAt]
    · intro cluster hcluster
      rcases hcluster with hne | hfails | hfollows
      · simp [State.setPc, State.stampClusterOf, hne]
      · simp [hfine] at hfails
      · exact absurd hleads hfollows
    · rintro rfl
      simp [hrank, rank, Pc.level]

theorem stampPass2_kept (hinv : Inv call trace before)
    (hslot : slot < call.participants) (hpc : before.pc slot = .stampPass2)
    (hstep : stepSlot call before slot = some (after, event)) :
    Kept call (trace ++ event.toList) after := by
  obtain ⟨hfine, -⟩ := hinv.fine hslot hpc (by simp [FailedPlace])
  have hrank : rankOf before slot = 16 := by
    simp [rankOf, hpc, rank, Pc.level]
  simp only [stepSlot, hpc, Option.some.injEq, Prod.mk.injEq] at hstep
  obtain ⟨rfl, rfl⟩ := hstep
  refine hinv.shown .left hfine (by omega) rfl rfl rfl
    (.within ?_ ?_) trivial trivial ?_ (by simp [hpc]) (by simp)
  · simp [hrank, rank, Pc.level]
  · simp [Crosses, hrank, rank, Pc.level]
  · refine hinv.stamps.move rfl ?_ ?_ ?_ ?_ ?_ ?_ (fun _ _ => rfl)
      (hinv.stamps.flag_kept slot .left rfl rfl ?_)
    · intro other hother
      simp [State.setPc, State.stamp, hother]
    · simp [rank, Pc.level]
    · simp [State.setPc, State.stamp]
    · simp [State.setPc, State.stamp]
    · simp [State.setPc, State.stamp]
    · intro hhier _ hleads
      have hold := hinv.stamps.cluster hhier slot hslot hleads hfine
      rw [hrank] at hold
      exact hold
    · rintro rfl
      simp [hrank, rank, Pc.level]

/-! ## The failure exit -/

/-- A step on the failure exit. -/
theorem Inv.exiting (pc : Pc T) (hinv : Inv call trace before)
    (hfails : fails call slot = true)
    (hpc : after.pc = Function.update before.pc slot pc)
    (hfirst : after.firstException = before.firstException)
    (hcancelled : after.scanCancelled = before.scanCancelled)
    (hup : rankOf before slot ≤ rank pc) (hplace : FailedPlace slot pc)
    (hseen : Seen call (rankOf after) slot pc) (hstamps : Stamps call after)
    (hraised : before.firstException ≠ none ∧ before.scanCancelled = true)
    (hcapture : ∀ site next, before.pc slot ≠ .capture site next)
    (hnew : ∀ site next, pc ≠ .capture site next) :
    Kept call (trace ++ (none : Option (Event T)).toList) after where
  control := hinv.control.move hpc (.failed hup hfails)
    (route_failed hfails hplace) hseen
  stamps := hstamps
  failures := hinv.failures.quiet hpc hfirst (fun hset => hcancelled ▸ hset)
    hcapture hnew (by simp) (fun _ => hraised.1)
    (fun _ _ _ => by rwa [hcancelled])
  passes := hinv.passes.move hpc (fun hfine => by simp [hfails] at hfine)
    (by simp)

theorem stampFailed_kept (hinv : Inv call trace before)
    (hslot : slot < call.participants) (hpc : before.pc slot = .stampFailed)
    (hstep : stepSlot call before slot = some (after, event)) :
    Kept call (trace ++ event.toList) after := by
  obtain ⟨hfails, -⟩ := hinv.failed hslot hpc (by simp [Place])
  have hrank : rankOf before slot = 2 := by simp [rankOf, hpc, rank]
  have hraised := hinv.failures.raised slot hslot hfails (.inl hpc)
  obtain ⟨rfl, rfl⟩ := by simpa [stepSlot, hpc] using hstep
  have hstamps : ∀ {next : Pc T}, 3 ≤ rank next →
      (slot = 0 → rank next < 10) →
      Stamps call ((before.stamp slot
        (call.epochs.epochBase + 2)).setPc slot next) := by
    intro next hthree hten
    refine hinv.stamps.move rfl ?_ (fun _ => by omega) ?_ ?_ ?_ ?_
      (fun _ _ => rfl) (hinv.stamps.flag_kept slot next rfl rfl ?_)
    · intro other hother
      simp [State.setPc, State.stamp, hother]
    · simp [State.setPc, State.stamp]
    · simp [State.setPc, State.stamp]
    · simp [State.setPc, State.stamp]
    · intro _ hfine
      simp [hfails] at hfine
    · intro hzero
      have := hten hzero
      subst hzero
      omega
  by_cases hzero : slot = 0
  · rw [if_pos hzero]
    refine hinv.exiting .publishFailed hfails rfl rfl rfl ?_ hzero trivial
      (hstamps ?_ ?_) hraised (by simp [hpc]) (by simp)
    · simp [hrank, rank]
    · simp [rank]
    · simp [rank]
  · rw [if_neg hzero]
    refine hinv.exiting .left hfails rfl rfl rfl ?_ trivial trivial
      (hstamps ?_ fun hslotZero => absurd hslotZero hzero) hraised
      (by simp [hpc]) (by simp)
    · simp [hrank, rank, Pc.level]
    · simp [rank, Pc.level]

theorem publishFailed_kept (hinv : Inv call trace before)
    (hslot : slot < call.participants) (hpc : before.pc slot = .publishFailed)
    (hstep : stepSlot call before slot = some (after, event)) :
    Kept call (trace ++ event.toList) after := by
  obtain ⟨hfails, hzero⟩ := hinv.failed hslot hpc (by simp [Place])
  have hrank : rankOf before slot = 9 := by simp [rankOf, hpc, rank]
  have hraised := hinv.failures.raised slot hslot hfails (.inr (by omega))
  obtain ⟨rfl, rfl⟩ := by simpa [stepSlot, hpc] using hstep
  have hzero' : slot = 0 := hzero
  subst hzero'
  refine hinv.exiting (.awaitLeft 1) hfails rfl rfl rfl ?_ ⟨rfl, le_rfl⟩
    trivial ?_ hraised (by simp [hpc]) (by simp)
  · simp [hrank, rank]
  · refine hinv.stamps.shown (.awaitLeft 1) hslot rfl ?_ ?_ rfl ?_
      (fun _ _ => rfl) ?_
    · simp [hrank, rank]
    · simp [Crosses, hrank, rank]
    · intro _ hfine
      simp [hfails] at hfine
    · simp [rankOf, State.setPc, rank]

theorem awaitLeft_kept {other : ℕ} (hinv : Inv call trace before)
    (hslot : slot < call.participants)
    (hpc : before.pc slot = .awaitLeft other)
    (hstep : stepSlot call before slot = some (after, event)) :
    Kept call (trace ++ event.toList) after := by
  obtain ⟨hfails, hzero, hone⟩ := hinv.failed hslot hpc (by simp [Place])
  have hrank : rankOf before slot = 10 := by simp [rankOf, hpc, rank]
  have hraised := hinv.failures.raised slot hslot hfails (.inr (by omega))
  have hfinal := hinv.stamps.failed slot hslot hfails (by omega)
  have hstamps : ∀ {next : Pc T}, 10 ≤ rank next →
      Stamps call (before.setPc slot next) := by
    intro next hten
    refine hinv.stamps.move rfl (fun _ _ => rfl) (fun _ => by omega)
      (fun _ => ?_) (fun _ => hfinal) (fun _ _ => hfinal) ?_ (fun _ _ => rfl)
      (hinv.stamps.flag_kept slot next rfl rfl ?_)
    · exact hinv.stamps.stamped slot hslot (by omega)
    · intro _ hfine
      simp [hfails] at hfine
    · intro hslotZero
      subst hslotZero
      omega
  simp only [stepSlot, hpc] at hstep
  split at hstep
  next =>
    split at hstep
    · simp at hstep
    · obtain ⟨rfl, rfl⟩ := by simpa using hstep
      refine hinv.exiting (.awaitLeft (other + 1)) hfails rfl rfl rfl ?_
        ⟨hzero, by omega⟩ trivial (hstamps ?_) hraised (by simp [hpc])
        (by simp)
      · simp [hrank, rank]
      · simp [rank]
  next =>
    obtain ⟨rfl, rfl⟩ := by simpa using hstep
    refine hinv.exiting .left hfails rfl rfl rfl ?_ trivial trivial
      (hstamps ?_) hraised (by simp [hpc]) (by simp)
    · simp [hrank, rank, Pc.level]
    · simp [rank, Pc.level]

/-! ## Silent steps through the engine -/

theorem leader_zero_of_flat (hflat : call.hierarchical = false)
    (hleads : call.leader slot = slot) : slot = 0 := by
  rw [← hleads, call.leader_flat hflat]

/-- A leader's members that it has read are past their stamp. -/
theorem Inv.read_member (hinv : Inv call trace before) {member : ℕ}
    (hmember : member < call.participants)
    (hstamp : ¬ before.done member < call.epochs.epochBase + 1) :
    3 ≤ rankOf before member := by
  by_contra hlow
  have := hinv.stamps.unstamped member hmember (by omega)
  omega

theorem awaitPass1_kept {member : ℕ} (hinv : Inv call trace before)
    (hslot : slot < call.participants)
    (hpc : before.pc slot = .awaitPass1 member)
    (hstep : stepSlot call before slot = some (after, event)) :
    Kept call (trace ++ event.toList) after := by
  obtain ⟨hfine, hleads, hless⟩ := hinv.fine hslot hpc (by simp [FailedPlace])
  have hrank : rankOf before slot = 3 := by simp [rankOf, hpc, rank, Pc.level]
  have hseen := hinv.control.seen slot hslot
  rw [hpc] at hseen
  simp only [stepSlot, hpc] at hstep
  split at hstep
  next hmember =>
    split at hstep
    · simp at hstep
    next hstamp =>
      have hnext : nextMember slot (member + 1) = member + 1 := by
        unfold nextMember
        rw [if_neg (by omega)]
      rw [hnext] at hstep
      obtain ⟨rfl, rfl⟩ := by simpa using hstep
      refine hinv.silent hslot hfine (by omega) silent_setPc (.within ?_ ?_)
        ⟨hleads, by omega⟩ ?_ ?_ ?_ ?_ (by simp [hpc]) (by simp) (by simp)
        (by simp)
      · simp [hrank, rank, Pc.level]
      · simp [Crosses, hrank, rank, Pc.level]
      · intro other hlow hbound hend
        have hmono : rankOf before other ≤ rankOf (before.setPc slot
            (.awaitPass1 (member + 1))) other :=
          rank_mono (silent_setPc : Silent slot (.awaitPass1 (member + 1)) before _).pc
            (by simp [hrank, rank, Pc.level]) other
        refine le_trans ?_ hmono
        rcases Nat.lt_succ_iff_lt_or_eq.1 hbound with hearlier | rfl
        · exact hseen other hlow hearlier hend
        · exact hinv.read_member (hend.trans_le (call.groupEnd_le hslot))
            hstamp
      · simp [Crosses, hrank, rank, Pc.level]
      · simp [Crosses, hrank, rank, Pc.level]
      · simp [Crosses, hrank, rank, Pc.level]
  next hmember =>
    have hall : ∀ other, slot < other → other < call.groupEnd slot →
        3 ≤ rankOf before other := fun other hlow hend =>
      hseen other hlow.le (by omega) hend
    unfold afterAwait at hstep
    cases hhier : call.hierarchical with
    | true =>
        rw [hhier, if_pos rfl] at hstep
        obtain ⟨rfl, rfl⟩ := by simpa using hstep
        refine hinv.silent hslot hfine (by omega) silent_setPc
          ⟨?_, fun _ _ _ _ => hall, ?_, ?_⟩ ⟨hleads, le_rfl,
            call.lt_groupEnd hslot, ?_, fun hflat => by simp [hhier] at hflat⟩
          trivial ?_ ?_ ?_ (by simp [hpc]) (by simp) (by simp) (by simp)
        · simp [hrank, rank, Pc.level]
        · exact fun _ _ height => absurd height (by simp [rank, Pc.level])
        · exact fun _ _ hten => absurd hten (by simp [rank, Pc.level])
        · intro earlier hlow hearlier
          omega
        · simp [Crosses, hrank, rank, Pc.level]
        · simp [Crosses, hrank, rank, Pc.level]
        · simp [Crosses, hrank, rank, Pc.level]
    | false =>
        rw [hhier, if_neg (by decide)] at hstep
        obtain ⟨rfl, rfl⟩ := by simpa using hstep
        refine hinv.silent hslot hfine (by omega) silent_setPc
          ⟨?_, fun _ _ _ _ => hall, ?_, ?_⟩
          ⟨hhier, leader_zero_of_flat hhier hleads⟩
          trivial ?_ ?_ ?_ (by simp [hpc]) (by simp) (by simp) (by simp)
        · simp [hrank, rank, Pc.level]
        · exact fun _ _ height => absurd height (by simp [rank, Pc.level])
        · exact fun _ _ hten => absurd hten (by simp [rank, Pc.level])
        · simp [Crosses, hrank, rank, Pc.level]
        · simp [Crosses, hrank, rank, Pc.level]
        · simp [Crosses, hrank, rank, Pc.level]

/-- In the flat engine slot 0 owes nothing for the other clusters. -/
theorem no_other_cluster (hflat : call.hierarchical = false) {cluster : ℕ}
    (hcluster : cluster < call.numClusters) : ¬ 1 ≤ cluster := by
  rw [call.numClusters_flat hflat] at hcluster
  omega

theorem loadFailed_kept (hinv : Inv call trace before)
    (hslot : slot < call.participants) (hpc : before.pc slot = .loadFailed)
    (hstep : stepSlot call before slot = some (after, event)) :
    Kept call (trace ++ event.toList) after := by
  obtain ⟨hfine, hflat, hzero⟩ := hinv.fine hslot hpc (by simp [FailedPlace])
  have hrank : rankOf before slot = 4 := by simp [rankOf, hpc, rank, Pc.level]
  have hleads : call.leader slot = slot := by
    rw [call.leader_flat hflat, hzero]
  simp only [stepSlot, hpc] at hstep
  split at hstep
  next =>
    obtain ⟨rfl, rfl⟩ := by simpa using hstep
    refine hinv.silent hslot hfine (by omega) silent_setPc ⟨?_, ?_, ?_, ?_⟩
      hzero trivial ?_ ?_ ?_ (by simp [hpc]) (by simp) (by simp) (by simp)
    · simp [hrank, rank, Pc.level]
    · exact fun _ hless => by omega
    · exact fun _ _ _ _ cluster hcluster hone =>
        absurd hone (no_other_cluster hflat hcluster)
    · exact fun _ _ hten => absurd hten (by simp [rank, Pc.level])
    · simp [Crosses, hrank, rank, Pc.level]
    · exact fun hhier => by simp [hflat] at hhier
    · simp [Crosses, hrank, rank, Pc.level]
  next hnone =>
    obtain ⟨rfl, rfl⟩ := by simpa using hstep
    -- every failed slot would have captured before its stamp was read
    have hcalm : Calm call := by
      intro other hother
      cases hfails : fails call other with
      | false => rfl
      | true =>
          have hpast := hinv.control.group slot hslot hfine hleads
            (by omega) other (by omega)
            (by rwa [call.groupEnd_flat hflat])
          have hraised := hinv.failures.raised other hother hfails (.inr hpast)
          cases hfirst : before.firstException with
          | none => exact absurd hfirst hraised.1
          | some site => simp [hfirst] at hnone
    refine hinv.silent hslot hfine (by omega) silent_setPc (.within ?_ ?_)
      ⟨hleads, le_rfl, call.lt_groupEnd hslot, ?_, fun _ => hcalm⟩
      trivial ?_ ?_ ?_ (by simp [hpc]) (by simp) (by simp) (by simp)
    · simp [hrank, rank, Pc.level]
    · simp [Crosses, hrank, rank, Pc.level]
    · intro earlier hlow hearlier
      omega
    · simp [Crosses, hrank, rank, Pc.level]
    · simp [Crosses, hrank, rank, Pc.level]
    · simp [Crosses, hrank, rank, Pc.level]

/-- Leaving the loop over the members, with or without a throw. -/
theorem afterReduce_cases (call : Call T) (acc : T) :
    (call.hierarchical = true ∧ afterReduce call acc = .publishTotal acc) ∨
      (call.hierarchical = false ∧
        afterReduce call acc = .publishPrefixes acc) := by
  unfold afterReduce
  cases call.hierarchical <;> simp

theorem reduce_kept {member : ℕ} {acc : T} (hinv : Inv call trace before)
    (hslot : slot < call.participants)
    (hpc : before.pc slot = .reduce member acc)
    (hstep : stepSlot call before slot = some (after, event)) :
    Kept call (trace ++ event.toList) after := by
  obtain ⟨hfine, hleads, hlow, hend, hquiet, hcalm⟩ :=
    hinv.fine hslot hpc (by simp [FailedPlace])
  have hrank : rankOf before slot = 5 := by simp [rankOf, hpc, rank, Pc.level]
  have hcapture : ∀ site next, before.pc slot ≠ .capture site next := by
    simp [hpc]
  simp only [stepSlot, hpc] at hstep
  split at hstep
  next =>
    obtain ⟨rfl, rfl⟩ := by simpa using hstep
    obtain ⟨hhier, hnext⟩ | ⟨hflat, hnext⟩ := afterReduce_cases call acc
    · rw [hnext]
      refine hinv.throwing hslot hfine (by omega) hcapture
        ⟨rfl, rfl, rfl, rfl, rfl, id⟩ (by simp) (.within ?_ ?_)
        ⟨hhier, hleads⟩ ?_ ?_ ?_
      · simp [hrank, resumeRank]
      · simp [Crosses, hrank, resumeRank]
      · simp [Crosses, hrank, resumeRank]
      · simp [Crosses, hrank, resumeRank]
      · simp [Crosses, hrank, resumeRank]
    · rw [hnext]
      refine hinv.throwing hslot hfine (by omega) hcapture
        ⟨rfl, rfl, rfl, rfl, rfl, id⟩ (by simp) ⟨?_, ?_, ?_, ?_⟩
        (leader_zero_of_flat hflat hleads) ?_ ?_ ?_
      · simp [hrank, resumeRank]
      · exact fun _ hless => by omega
      · exact fun _ _ _ _ cluster hcluster hone =>
          absurd hone (no_other_cluster hflat hcluster)
      · exact fun _ _ hten => absurd hten (by simp [resumeRank])
      · simp [Crosses, hrank, resumeRank]
      · exact fun hhier => by simp [hflat] at hhier
      · simp [Crosses, hrank, resumeRank]
  next hreturns =>
    obtain ⟨rfl, rfl⟩ := by simpa using hstep
    generalize call.prefixFn acc (before.partials member) = value
    unfold nextReduce
    split
    next hmore =>
      refine hinv.silent hslot hfine (by omega)
        ⟨rfl, rfl, rfl, rfl, rfl, id⟩ (.within ?_ ?_)
        ⟨hleads, by omega, hmore, ?_, hcalm⟩ trivial ?_ ?_ ?_ hcapture
        (by simp) (by simp) (by simp)
      · simp [hrank, rank, Pc.level]
      · simp [Crosses, hrank, rank, Pc.level]
      · intro earlier hfrom hless
        rcases Nat.lt_succ_iff_lt_or_eq.1 hless with hearlier | rfl
        · exact hquiet earlier hfrom hearlier
        · simpa using hreturns
      · simp [Crosses, hrank, rank, Pc.level]
      · simp [Crosses, hrank, rank, Pc.level]
      · simp [Crosses, hrank, rank, Pc.level]
    next =>
      obtain ⟨hhier, hnext⟩ | ⟨hflat, hnext⟩ := afterReduce_cases call value
      · rw [hnext]
        refine hinv.silent hslot hfine (by omega)
          ⟨rfl, rfl, rfl, rfl, rfl, id⟩ (.within ?_ ?_) ⟨hhier, hleads⟩
          trivial ?_ ?_ ?_ hcapture (by simp) (by simp) (by simp)
        · simp [hrank, rank, Pc.level]
        · simp [Crosses, hrank, rank, Pc.level]
        · simp [Crosses, hrank, rank, Pc.level]
        · simp [Crosses, hrank, rank, Pc.level]
        · simp [Crosses, hrank, rank, Pc.level]
      · rw [hnext]
        refine hinv.silent hslot hfine (by omega)
          ⟨rfl, rfl, rfl, rfl, rfl, id⟩ ⟨?_, ?_, ?_, ?_⟩
          (leader_zero_of_flat hflat hleads) trivial ?_ ?_ ?_ hcapture
          (by simp) (by simp) (by simp)
        · simp [hrank, rank, Pc.level]
        · exact fun _ hless => by omega
        · exact fun _ _ _ _ cluster hcluster hone =>
            absurd hone (no_other_cluster hflat hcluster)
        · exact fun _ _ hten => absurd hten (by simp [rank, Pc.level])
        · simp [Crosses, hrank, rank, Pc.level]
        · exact fun hhier => by simp [hflat] at hhier
        · simp [Crosses, hrank, rank, Pc.level]

theorem awaitCluster_kept {cluster : ℕ} (hinv : Inv call trace before)
    (hsurvives : Survives call) (hslot : slot < call.participants)
    (hpc : before.pc slot = .awaitCluster cluster)
    (hstep : stepSlot call before slot = some (after, event)) :
    Kept call (trace ++ event.toList) after := by
  obtain ⟨hfine, hhier, hzero, hone, hcluster⟩ :=
    hinv.fine hslot hpc (by simp [FailedPlace])
  have hrank : rankOf before slot = 7 := by simp [rankOf, hpc, rank, Pc.level]
  have hseen := hinv.control.seen slot hslot
  rw [hpc] at hseen
  simp only [stepSlot, hpc] at hstep
  split at hstep
  · simp at hstep
  next hstamp =>
    have hread : ∀ other < cluster + 1,
        7 ≤ rankOf before (call.clusterFirst other) := by
      intro other hother
      rcases Nat.lt_succ_iff_lt_or_eq.1 hother with hearlier | rfl
      · exact hseen other hearlier
      · have hleader := call.clusterFirst_lt_participants hcluster
        have howns := call.leader_clusterFirst hcluster
        have hleaderFine := hsurvives.leader hhier (hzero ▸ hfine) hleader
        rw [howns] at hleaderFine
        have hold := hinv.stamps.cluster hhier _ hleader howns hleaderFine
        rw [call.cluster_clusterFirst hcluster] at hold
        by_contra hlow
        rw [hold, stampAt, if_neg (by omega), if_neg hlow] at hstamp
        omega
    obtain ⟨rfl, rfl⟩ := by simpa using hstep
    unfold nextCluster
    split
    next hmore =>
      refine hinv.silent hslot hfine (by omega) silent_setPc (.within ?_ ?_)
        ⟨hhier, hzero, by omega, hmore⟩ ?_ ?_ ?_ ?_ (by simp [hpc]) (by simp)
        (by simp) (by simp)
      · simp [hrank, rank, Pc.level]
      · simp [Crosses, hrank, rank, Pc.level]
      · intro other hother
        refine (hread other hother).trans (rank_mono
          (silent_setPc : Silent slot (.awaitCluster (cluster + 1)) before _).pc ?_ _)
        simp [hrank, rank, Pc.level]
      · simp [Crosses, hrank, rank, Pc.level]
      · simp [Crosses, hrank, rank, Pc.level]
      · simp [Crosses, hrank, rank, Pc.level]
    next hlast =>
      refine hinv.silent hslot hfine (by omega) silent_setPc
        ⟨?_, ?_, ?_, ?_⟩ ⟨hhier, hzero, call.numClusters_pos⟩ trivial ?_ ?_ ?_
        (by simp [hpc]) (by simp) (by simp) (by simp)
      · simp [hrank, rank, Pc.level]
      · exact fun _ hless => by omega
      · exact fun _ _ _ _ other hother _ => hread other (by omega)
      · exact fun _ _ hten => absurd hten (by simp [rank, Pc.level])
      · simp [Crosses, hrank, rank, Pc.level]
      · simp [Crosses, hrank, rank, Pc.level]
      · simp [Crosses, hrank, rank, Pc.level]

theorem crossReduce_kept {cluster : ℕ} {globalAcc : T}
    (hinv : Inv call trace before) (hslot : slot < call.participants)
    (hpc : before.pc slot = .crossReduce cluster globalAcc)
    (hstep : stepSlot call before slot = some (after, event)) :
    Kept call (trace ++ event.toList) after := by
  obtain ⟨hfine, hhier, hzero, hcluster⟩ :=
    hinv.fine hslot hpc (by simp [FailedPlace])
  have hrank : rankOf before slot = 8 := by simp [rankOf, hpc, rank, Pc.level]
  have hcapture : ∀ site next, before.pc slot ≠ .capture site next := by
    simp [hpc]
  simp only [stepSlot, hpc] at hstep
  split at hstep
  next =>
    obtain ⟨rfl, rfl⟩ := by simpa using hstep
    refine hinv.throwing hslot hfine (by omega) hcapture
      ⟨rfl, rfl, rfl, rfl, rfl, id⟩ (by simp) (.within ?_ ?_) hzero ?_ ?_ ?_
    · simp [hrank, resumeRank]
    · simp [Crosses, hrank, resumeRank]
    · simp [Crosses, hrank, resumeRank]
    · simp [Crosses, hrank, resumeRank]
    · simp [Crosses, hrank, resumeRank]
  next =>
    obtain ⟨rfl, rfl⟩ := by simpa using hstep
    unfold nextCross
    split
    next hmore =>
      refine hinv.silent hslot hfine (by omega)
        ⟨rfl, rfl, rfl, rfl, rfl, id⟩ (.within ?_ ?_) ⟨hhier, hzero, hmore⟩
        trivial ?_ ?_ ?_ hcapture (by simp) (by simp) (by simp)
      · simp [hrank, rank, Pc.level]
      · simp [Crosses, hrank, rank, Pc.level]
      · simp [Crosses, hrank, rank, Pc.level]
      · simp [Crosses, hrank, rank, Pc.level]
      · simp [Crosses, hrank, rank, Pc.level]
    next =>
      refine hinv.silent hslot hfine (by omega)
        ⟨rfl, rfl, rfl, rfl, rfl, id⟩ (.within ?_ ?_) hzero
        trivial ?_ ?_ ?_ hcapture (by simp) (by simp) (by simp)
      · simp [hrank, rank, Pc.level]
      · simp [Crosses, hrank, rank, Pc.level]
      · simp [Crosses, hrank, rank, Pc.level]
      · simp [Crosses, hrank, rank, Pc.level]
      · simp [Crosses, hrank, rank, Pc.level]

theorem awaitPrefixes_kept (hinv : Inv call trace before)
    (hslot : slot < call.participants) (hpc : before.pc slot = .awaitPrefixes)
    (hstep : stepSlot call before slot = some (after, event)) :
    Kept call (trace ++ event.toList) after := by
  obtain ⟨hfine, hne, hleads⟩ := hinv.fine hslot hpc (by simp [FailedPlace])
  have hrank : rankOf before slot = 9 := by simp [rankOf, hpc, rank, Pc.level]
  simp only [stepSlot, hpc] at hstep
  split at hstep
  next hflag =>
    have hpublished := hinv.stamps.published.1 hflag
    obtain ⟨rfl, rfl⟩ := by simpa using hstep
    unfold afterPublished
    cases hhier : call.hierarchical with
    | true =>
        rw [if_pos rfl]
        refine hinv.silent hslot hfine (by omega) silent_setPc
          ⟨?_, ?_, ?_, fun _ _ _ => .inr hpublished⟩
          ⟨hhier, hleads hhier, le_rfl, call.lt_groupEnd hslot, ?_⟩
          trivial ?_ ?_ ?_ (by simp [hpc]) (by simp) (by simp) (by simp)
        · simp [hrank, rank, Pc.level]
        · exact fun _ hless => by omega
        · exact fun _ hless => by omega
        · intro earlier hlow hless
          omega
        · simp [Crosses, hrank, rank, Pc.level]
        · simp [Crosses, hrank, rank, Pc.level]
        · exact fun hzero => absurd hzero hne
    | false =>
        rw [if_neg (by decide)]
        refine hinv.silent hslot hfine (by omega) silent_setPc
          ⟨?_, ?_, ?_, fun _ _ _ => .inr hpublished⟩ trivial trivial ?_ ?_ ?_
          (by simp [hpc]) (by simp) (by simp) (by simp)
        · simp [hrank, rank, Pc.level]
        · exact fun _ hless => by omega
        · exact fun _ hless => by omega
        · simp [Crosses, hrank, rank, Pc.level]
        · exact fun hhierTrue => by simp [hhier] at hhierTrue
        · exact fun hzero => absurd hzero hne
  · simp at hstep

theorem combine_kept {member : ℕ} {cPrefix : T} (hinv : Inv call trace before)
    (hslot : slot < call.participants)
    (hpc : before.pc slot = .combine member cPrefix)
    (hstep : stepSlot call before slot = some (after, event)) :
    Kept call (trace ++ event.toList) after := by
  obtain ⟨hfine, hhier, hleads, hlow, hend, hquiet⟩ :=
    hinv.fine hslot hpc (by simp [FailedPlace])
  have hrank : rankOf before slot = 10 := by
    simp [rankOf, hpc, rank, Pc.level]
  have hcapture : ∀ site next, before.pc slot ≠ .capture site next := by
    simp [hpc]
  simp only [stepSlot, hpc] at hstep
  split at hstep
  next =>
    obtain ⟨rfl, rfl⟩ := by simpa using hstep
    refine hinv.throwing hslot hfine (by omega) hcapture silent_setPc
      (by simp) (.within ?_ ?_) ⟨hhier, hleads⟩ ?_ ?_ ?_
    · simp [hrank, resumeRank]
    · simp [Crosses, hrank, resumeRank]
    · simp [Crosses, hrank, resumeRank]
    · simp [Crosses, hrank, resumeRank]
    · simp [Crosses, hrank, resumeRank]
  next hreturns =>
    obtain ⟨rfl, rfl⟩ := by simpa using hstep
    unfold nextCombine
    split
    next hmore =>
      refine hinv.silent hslot hfine (by omega)
        ⟨rfl, rfl, rfl, rfl, rfl, id⟩ (.within ?_ ?_)
        ⟨hhier, hleads, by omega, hmore, ?_⟩ trivial ?_ ?_ ?_ hcapture
        (by simp) (by simp) (by simp)
      · simp [hrank, rank, Pc.level]
      · simp [Crosses, hrank, rank, Pc.level]
      · intro earlier hfrom hless
        rcases Nat.lt_succ_iff_lt_or_eq.1 hless with hearlier | rfl
        · exact hquiet earlier hfrom hearlier
        · simpa using hreturns
      · simp [Crosses, hrank, rank, Pc.level]
      · simp [Crosses, hrank, rank, Pc.level]
      · simp [Crosses, hrank, rank, Pc.level]
    next =>
      refine hinv.silent hslot hfine (by omega)
        ⟨rfl, rfl, rfl, rfl, rfl, id⟩ (.within ?_ ?_) ⟨hhier, hleads⟩
        trivial ?_ ?_ ?_ hcapture (by simp) (by simp) (by simp)
      · simp [hrank, rank, Pc.level]
      · simp [Crosses, hrank, rank, Pc.level]
      · simp [Crosses, hrank, rank, Pc.level]
      · simp [Crosses, hrank, rank, Pc.level]
      · simp [Crosses, hrank, rank, Pc.level]

theorem awaitCombined_kept (hinv : Inv call trace before)
    (hsurvives : Survives call) (hslot : slot < call.participants)
    (hpc : before.pc slot = .awaitCombined)
    (hstep : stepSlot call before slot = some (after, event)) :
    Kept call (trace ++ event.toList) after := by
  obtain ⟨hfine, hhier, hfollows⟩ :=
    hinv.fine hslot hpc (by simp [FailedPlace])
  have hrank : rankOf before slot = 9 := by simp [rankOf, hpc, rank, Pc.level]
  simp only [stepSlot, hpc] at hstep
  split at hstep
  · simp at hstep
  next hstamp =>
    have hleaderFine := hsurvives.leader_of_member hhier hslot hfine
    have hold := hinv.stamps.cluster hhier _ (call.leader_lt hslot)
      (call.leader_leader hslot) hleaderFine
    rw [call.cluster_leader hslot] at hold
    have hleader : 12 ≤ rankOf before (call.leader slot) := by
      by_contra hlow
      rw [hold, stampAt, if_neg hlow] at hstamp
      split at hstamp <;> omega
    have hpublished := hinv.control.published _ (call.leader_lt hslot)
      hleaderFine (by omega)
    obtain ⟨rfl, rfl⟩ := by simpa using hstep
    refine hinv.silent hslot hfine (by omega) silent_setPc
      ⟨?_, ?_, ?_, fun _ _ _ => .inr hpublished⟩ trivial trivial ?_ ?_ ?_
      (by simp [hpc]) (by simp) (by simp) (by simp)
    · simp [hrank, rank, Pc.level]
    · exact fun _ hless => by omega
    · exact fun _ hless => by omega
    · simp [Crosses, hrank, rank, Pc.level]
    · exact fun _ hleads => absurd hleads hfollows
    · rintro rfl
      exact absurd call.leader_zero hfollows

/-! ## The second pass -/

theorem loadCancelled_kept (hinv : Inv call trace before)
    (hsurvives : Survives call) (hslot : slot < call.participants)
    (hpc : before.pc slot = .loadCancelled)
    (hstep : stepSlot call before slot = some (after, event)) :
    Kept call (trace ++ event.toList) after := by
  obtain ⟨hfine, -⟩ := hinv.fine hslot hpc (by simp [FailedPlace])
  have hrank : rankOf before slot = 12 := by
    simp [rankOf, hpc, rank, Pc.level]
  simp only [stepSlot, hpc] at hstep
  split at hstep
  next =>
    obtain ⟨rfl, rfl⟩ := by simpa using hstep
    refine hinv.silent hslot hfine (by omega) silent_setPc (.within ?_ ?_)
      trivial trivial ?_ ?_ ?_ (by simp [hpc]) (by simp) (by simp) (by simp)
    · simp [hrank, rank, Pc.level]
    · simp [Crosses, hrank, rank, Pc.level]
    · simp [Crosses, hrank, rank, Pc.level]
    · simp [Crosses, hrank, rank, Pc.level]
    · simp [Crosses, hrank, rank, Pc.level]
  next hclear =>
    have hcalm : Calm call := hinv.calm_of_published hsurvives
      (hinv.control.published slot hslot hfine (by omega))
      (by simpa using hclear)
    obtain ⟨rfl, rfl⟩ := by simpa using hstep
    refine hinv.silent hslot hfine (by omega) silent_setPc (.within ?_ ?_)
      hcalm trivial ?_ ?_ ?_ (by simp [hpc]) (by simp) (by simp) (by simp)
    · simp [hrank, rank, Pc.level]
    · simp [Crosses, hrank, rank, Pc.level]
    · simp [Crosses, hrank, rank, Pc.level]
    · simp [Crosses, hrank, rank, Pc.level]
    · simp [Crosses, hrank, rank, Pc.level]

theorem pollToken_kept (hinv : Inv call trace before)
    (hslot : slot < call.participants) (hpc : before.pc slot = .pollToken)
    (hstep : stepSlot call before slot = some (after, event)) :
    Kept call (trace ++ event.toList) after := by
  obtain ⟨hfine, hcalm⟩ := hinv.fine hslot hpc (by simp [FailedPlace])
  have hrank : rankOf before slot = 13 := by
    simp [rankOf, hpc, rank, Pc.level]
  simp only [stepSlot, hpc] at hstep
  split at hstep
  next =>
    obtain ⟨rfl, rfl⟩ := by simpa using hstep
    refine hinv.silent hslot hfine (by omega) silent_setPc (.within ?_ ?_)
      trivial trivial ?_ ?_ ?_ (by simp [hpc]) (by simp) (by simp) (by simp)
    · simp [hrank, rank, Pc.level]
    · simp [Crosses, hrank, rank, Pc.level]
    · simp [Crosses, hrank, rank, Pc.level]
    · simp [Crosses, hrank, rank, Pc.level]
    · simp [Crosses, hrank, rank, Pc.level]
  next =>
    obtain ⟨rfl, rfl⟩ := by simpa using hstep
    refine hinv.silent hslot hfine (by omega) silent_setPc (.within ?_ ?_)
      hcalm trivial ?_ ?_ ?_ (by simp [hpc]) (by simp) (by simp [capturedSite])
      (fun _ _ _ => hcalm)
    · simp [hrank, rank, Pc.level]
    · simp [Crosses, hrank, rank, Pc.level]
    · simp [Crosses, hrank, rank, Pc.level]
    · simp [Crosses, hrank, rank, Pc.level]
    · simp [Crosses, hrank, rank, Pc.level]

theorem repollToken_kept (hinv : Inv call trace before)
    (hslot : slot < call.participants) (hpc : before.pc slot = .repollToken)
    (hstep : stepSlot call before slot = some (after, event)) :
    Kept call (trace ++ event.toList) after := by
  obtain ⟨hfine, -⟩ := hinv.fine hslot hpc (by simp [FailedPlace])
  have hrank : rankOf before slot = 14 := by
    simp [rankOf, hpc, rank, Pc.level]
  simp only [stepSlot, hpc] at hstep
  split at hstep
  all_goals
    obtain ⟨rfl, rfl⟩ := by simpa using hstep
    refine hinv.silent hslot hfine (by omega) silent_setPc (.within ?_ ?_)
      trivial trivial ?_ ?_ ?_ (by simp [hpc]) (by simp) (by simp) (by simp)
    all_goals simp [Crosses, hrank, rank, Pc.level]

theorem storeCancelled_kept (hinv : Inv call trace before)
    (hslot : slot < call.participants)
    (hpc : before.pc slot = .storeCancelled)
    (hstep : stepSlot call before slot = some (after, event)) :
    Kept call (trace ++ event.toList) after := by
  obtain ⟨hfine, -⟩ := hinv.fine hslot hpc (by simp [FailedPlace])
  have hrank : rankOf before slot = 15 := by
    simp [rankOf, hpc, rank, Pc.level]
  obtain ⟨rfl, rfl⟩ := by simpa [stepSlot, hpc] using hstep
  refine hinv.silent hslot hfine (by omega)
    ⟨rfl, rfl, rfl, rfl, rfl, fun _ => rfl⟩ (.within ?_ ?_)
    trivial trivial ?_ ?_ ?_ (by simp [hpc]) (by simp) (by simp) (by simp)
  all_goals simp [Crosses, hrank, rank, Pc.level]

theorem pass2Body_kept (hinv : Inv call trace before)
    (hslot : slot < call.participants) (hpc : before.pc slot = .pass2Body)
    (hstep : stepSlot call before slot = some (after, event)) :
    Kept call (trace ++ event.toList) after := by
  obtain ⟨hfine, -⟩ := hinv.fine hslot hpc (by simp [FailedPlace])
  have hrank : rankOf before slot = 14 := by
    simp [rankOf, hpc, rank, Pc.level]
  simp only [stepSlot, hpc] at hstep
  split at hstep
  next =>
    obtain ⟨rfl, rfl⟩ := by simpa using hstep
    refine hinv.throwing hslot hfine (by omega) (by simp [hpc]) silent_setPc
      (by simp) (.within ?_ ?_) trivial ?_ ?_ ?_
    all_goals simp [Crosses, hrank, resumeRank]
  next =>
    obtain ⟨rfl, rfl⟩ := by simpa using hstep
    refine hinv.silent hslot hfine (by omega) silent_setPc (.within ?_ ?_)
      trivial trivial ?_ ?_ ?_ (by simp [hpc]) (by simp)
      (by simp [capturedSite]) (by simp)
    all_goals simp [Crosses, hrank, rank, Pc.level]

/-- Every step of a slot. -/
theorem stepSlot_kept (hinv : Inv call trace before)
    (hsurvives : Survives call) (hslot : slot < call.participants)
    (hstep : stepSlot call before slot = some (after, event)) :
    Kept call (trace ++ event.toList) after := by
  cases hpc : before.pc slot with
  | pass1Enter => exact pass1Enter_kept hinv hslot hpc hstep
  | pass1Body => exact pass1Body_kept hinv hslot hpc hstep
  | stampPass1 => exact stampPass1_kept hinv hslot hpc hstep
  | awaitPass1 member => exact awaitPass1_kept hinv hslot hpc hstep
  | loadFailed => exact loadFailed_kept hinv hslot hpc hstep
  | reduce member acc => exact reduce_kept hinv hslot hpc hstep
  | publishTotal localAcc => exact publishTotal_kept hinv hslot hpc hstep
  | awaitCluster cluster =>
      exact awaitCluster_kept hinv hsurvives hslot hpc hstep
  | crossReduce cluster acc => exact crossReduce_kept hinv hslot hpc hstep
  | publishPrefixes acc => exact publishPrefixes_kept hinv hslot hpc hstep
  | awaitPrefixes => exact awaitPrefixes_kept hinv hslot hpc hstep
  | combine member cPrefix => exact combine_kept hinv hslot hpc hstep
  | stampCluster => exact stampCluster_kept hinv hslot hpc hstep
  | awaitCombined => exact awaitCombined_kept hinv hsurvives hslot hpc hstep
  | loadCancelled => exact loadCancelled_kept hinv hsurvives hslot hpc hstep
  | pollToken => exact pollToken_kept hinv hslot hpc hstep
  | repollToken => exact repollToken_kept hinv hslot hpc hstep
  | storeCancelled => exact storeCancelled_kept hinv hslot hpc hstep
  | pass2Body => exact pass2Body_kept hinv hslot hpc hstep
  | stampPass2 => exact stampPass2_kept hinv hslot hpc hstep
  | capture site next => exact capture_kept hinv hslot hpc hstep
  | arm next => exact arm_kept hinv hslot hpc hstep
  | stampFailed => exact stampFailed_kept hinv hslot hpc hstep
  | publishFailed => exact publishFailed_kept hinv hslot hpc hstep
  | awaitLeft other => exact awaitLeft_kept hinv hslot hpc hstep
  | left => simp [stepSlot, hpc] at hstep

end Citor.ScanFailure
