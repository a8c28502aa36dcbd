import Citor.Scan.ScanInvariant

/-!
# Every step of an undisturbed scan keeps the invariant

One lemma for each program counter.  Most moves store nothing and stay within
one band of levels; the others each touch one part of the invariant.
-/

namespace Citor.Scan

open Citor.Interleaving
open Citor.DoneSlots
open Citor.IntervalFold

variable {T : Type*}

section Slot

variable {call : Call T} {trace : List (Event T)} {before after : State T}
variable {slot : ℕ} {old pc : Pc T} {event : Option (Event T)}

theorem Climbs.of_pc (hold : before.pc slot = old)
    (hup : old.level ≤ pc.level)
    (hcross : ¬ Crosses [4, 8, 10, 12] old.level pc.level) :
    Climbs call before slot pc.level := by
  apply Climbs.within
  · rwa [level_of_pc hold]
  · rwa [level_of_pc hold]

/-- A move within one band of levels that stores nothing. -/
theorem Inv.stay (hinv : Inv call trace before)
    (hslot : slot < call.participants) (hold : before.pc slot = old)
    (hrunning : old.hasLeft = false) (hup : old.level ≤ pc.level)
    (hcross : ¬ Crosses [2, 3, 4, 7, 8, 10, 12, 17] old.level pc.level)
    (hshape : Shape call slot pc)
    (hseen : Seen call (before.setPc slot pc).level slot pc)
    (hexpected : call.leader slot = slot → ∀ member < call.participants,
      call.leader member = slot →
        expected call member pc = expected call member old)
    (hacc : Accumulated call before.clusterPrefixes slot pc)
    (hevent : ∀ emitted ∈ event, emitted.passOf = some slot)
    (hmove : ∀ events, History call before.stopRequested slot old events →
      History call before.stopRequested slot pc (events ++ event.toList)) :
    Inv call (trace ++ event.toList) (before.setPc slot pc) := by
  have hweaken : ∀ {small : List ℕ},
      small ⊆ [2, 3, 4, 7, 8, 10, 12, 17] →
        ¬ Crosses small old.level pc.level :=
    fun hsubset ⟨bound, hmem, hbounds⟩ =>
      hcross ⟨bound, hsubset hmem, hbounds⟩
  exact hinv.quiet hslot hold hrunning
    (.of_pc hold hup (hweaken (by simp))) hshape hseen (hweaken (by simp))
    (fun _ _ => hweaken (by simp)) (fun _ => hweaken (by simp)) hexpected hacc
    hevent hmove

theorem pass1Enter_inv (hinv : Inv call trace before)
    (hslot : slot < call.participants) (hpc : before.pc slot = .pass1Enter)
    (hstep : stepSlot call before slot = some (after, event)) :
    Inv call (trace ++ event.toList) after := by
  simp only [stepSlot, hpc, Option.some.injEq, Prod.mk.injEq] at hstep
  obtain ⟨rfl, rfl⟩ := hstep
  refine hinv.stay hslot hpc rfl (by simp [Pc.level])
    (by simp [Crosses, Pc.level]) trivial trivial ?_ trivial ?_ ?_
  · intro _ member _ _
    simp [expected, Pc.level]
  · simp [Event.passOf]
  · simp [History]

/-- Before the leader has reduced anything a partial is the first pass's. -/
theorem expected_of_le {member : ℕ} (hlow : pc.level ≤ 4) :
    expected call member pc = call.partialOf member := by
  cases pc <;> simp_all [expected, Pc.level]

/-- While a slot has not stamped its first pass its leader waits. -/
theorem Control.leader_waits (hcontrol : Control call before)
    (hslot : slot < call.participants) (hlow : before.level slot < 3) :
    before.level (call.leader slot) ≤ 3 := by
  by_contra hpast
  have := hcontrol.ordered.group (call.leader slot) (call.leader_lt hslot)
    (call.leader_leader hslot) (by omega) slot (call.leader_le hslot)
    (by rw [call.groupEnd_leader hslot]; exact call.lt_groupEnd hslot)
  omega

/-- A step that stores partials of the slot's own group only. -/
theorem Partials.move (hpartials : Partials call before)
    (hpc : after.pc = Function.update before.pc slot pc)
    (hmembers : ∀ member < call.participants, 2 ≤ after.level member →
      member = slot ∨ call.leader member = slot →
        after.partials member =
          expected call member (after.pc (call.leader member)))
    (hothers : ∀ member < call.participants, member ≠ slot →
      call.leader member ≠ slot →
        after.partials member = before.partials member) :
    Partials call after := by
  intro member hmember hwritten
  by_cases hself : member = slot
  · exact hmembers member hmember hwritten (.inl hself)
  · by_cases hleads : call.leader member = slot
    · exact hmembers member hmember hwritten (.inr hleads)
    · rw [hothers member hmember hself hleads]
      rw [level_other hpc hself] at hwritten
      simp [hpartials member hmember hwritten, hpc, hleads]

theorem pass1Body_inv (hinv : Inv call trace before)
    (hthrows : ∀ site, call.throws site = false)
    (hslot : slot < call.participants) (hpc : before.pc slot = .pass1Body)
    (hstep : stepSlot call before slot = some (after, event)) :
    Inv call (trace ++ event.toList) after := by
  simp only [stepSlot, hpc, hthrows, Bool.false_eq_true, if_false,
    Option.some.injEq, Prod.mk.injEq] at hstep
  obtain ⟨rfl, rfl⟩ := hstep
  have hlevel := level_of_pc hpc
  have hclimbs : Climbs call before slot (Pc.stampPass1 : Pc T).level :=
    .of_pc hpc (by simp [Pc.level]) (by simp [Crosses, Pc.level])
  apply hinv.move hslot (by simp [hpc, Pc.hasLeft]) rfl
  · exact hinv.control.move rfl hclimbs trivial trivial
  · exact hinv.stamps.quiet hslot rfl rfl rfl rfl hclimbs.up
      (by simp [hlevel, Crosses, Pc.level])
      (fun _ _ => by simp [hlevel, Crosses, Pc.level])
      (fun _ => by simp [hlevel, Crosses, Pc.level])
  · refine hinv.partials.move rfl ?_ ?_
    · intro member hmember hwritten hmine
      by_cases hself : member = slot
      · subst hself
        have hwaits : (before.pc (call.leader member)).level ≤ 3 :=
          hinv.control.leader_waits hmember (by simp [hlevel, Pc.level])
        rw [expected_of_le]
        · simp [State.setPc, State.setPartial]
        · by_cases howns : call.leader member = member
          · simp [State.setPc, howns, Pc.level]
          · simpa [State.setPc, State.setPartial, howns] using
              hwaits.trans (by omega : 3 ≤ 4)
      · have hleads : call.leader member = slot := hmine.resolve_left hself
        have hold := hinv.partials member hmember
          (by simpa [State.level, State.setPc, State.setPartial, hself]
            using hwritten)
        rw [hleads, hpc, expected_of_le (by simp [Pc.level])] at hold
        rw [hleads, expected_of_le (by simp [State.setPc, Pc.level])]
        simpa [State.setPc, State.setPartial, hself] using hold
    · intro member _ hself _
      simp [State.setPc, State.setPartial, hself]
  · exact hinv.totals.quiet hinv.control rfl rfl rfl rfl rfl trivial
      (fun _ _ => by simp [hlevel, Crosses, Pc.level])
      (fun _ => by simp [hlevel, Crosses, Pc.level])
  · simp [Event.passOf]
  · simp [hpc, History, pass1Events]
  · rfl
  · exact hinv.cancelled
  · rfl
  · rfl

theorem afterPass1_cases (call : Call T) (slot : ℕ) :
    (call.leader slot = slot ∧
        afterPass1 call slot = .awaitPass1 (slot + 1)) ∨
      (call.leader slot ≠ slot ∧ call.hierarchical = true ∧
        afterPass1 call slot = .awaitCombined) ∨
      (call.leader slot ≠ slot ∧ call.hierarchical = false ∧
        afterPass1 call slot = .awaitPrefixes) := by
  unfold afterPass1
  by_cases howns : call.leader slot = slot
  · simp [howns, nextMember]
  · cases hhier : call.hierarchical <;> simp [howns]

/-- The Pass-1 stamp, whatever the slot waits for next. -/
theorem Inv.stampPass1 (hinv : Inv call trace before)
    (hslot : slot < call.participants) (hpc : before.pc slot = .stampPass1)
    (hlow : 3 ≤ pc.level) (hhigh : pc.level ≤ 9)
    (howns : call.leader slot = slot → pc.level = 3)
    (hshape : Shape call slot pc)
    (hseen : ∀ level : ℕ → ℕ, 3 ≤ level slot → Seen call level slot pc)
    (hacc : Accumulated call before.clusterPrefixes slot pc)
    (hmove : ∀ events, events = pass1Events slot →
      History call before.stopRequested slot pc events) :
    Inv call (trace ++ (none : Option (Event T)).toList)
      ((before.stamp slot (call.epochs.epochBase + 1)).setPc slot pc) := by
  have hlevel : before.level slot = 2 := level_of_pc hpc
  have hclimbs : Climbs call before slot pc.level := by
    refine ⟨by omega, ?_, ?_, by omega, by omega⟩
    · intro _ hpast hleads
      have := howns hleads
      omega
    · rintro _ hpast rfl
      have := howns call.leader_zero
      omega
  have hfar : ∀ bound : ℕ, 9 < bound →
      ¬ Crosses [bound] (before.level slot) pc.level := by
    rintro bound hbound ⟨_, hmem, -, hpast⟩
    obtain rfl := List.mem_singleton.mp hmem
    omega
  have hnear : call.leader slot = slot → call.hierarchical = true →
      ¬ Crosses [7, 12] (before.level slot) pc.level := by
    intro hleads _
    simp [Crosses, howns hleads]
  apply hinv.move hslot (by simp [hpc, Pc.hasLeft]) rfl
  · exact hinv.control.move rfl hclimbs hshape
      (hseen _ (by simpa [State.level, State.setPc] using hlow))
  · apply hinv.stamps.move rfl
    · intro other hother
      simp [State.setPc, State.stamp, hother]
    · omega
    · simp [State.setPc, State.stamp]
    · exact hinv.stamps.cluster_quiet rfl rfl hclimbs.up hnear
    · exact hinv.stamps.published_quiet rfl rfl hclimbs.up
        fun _ => hfar 10 (by omega)
  · refine hinv.partials.quiet rfl rfl (by simp [Crosses, hlevel]) ?_
    intro hleads member _ _
    rw [hpc, expected_of_le (by simp [howns hleads]),
      expected_of_le (by simp [Pc.level])]
  · refine hinv.totals.quiet hinv.control rfl rfl rfl rfl rfl hacc ?_ ?_
    · intro hleads _
      simp [Crosses, howns hleads]
    · intro _
      simp only [Crosses, List.mem_cons, List.not_mem_nil, or_false]
      omega
  · simp
  · simpa [hpc, History] using hmove
  · rfl
  · exact hinv.cancelled
  · rfl
  · rfl

theorem stampPass1_inv (hinv : Inv call trace before)
    (hslot : slot < call.participants) (hpc : before.pc slot = .stampPass1)
    (hstep : stepSlot call before slot = some (after, event)) :
    Inv call (trace ++ event.toList) after := by
  simp only [stepSlot, hpc, Option.some.injEq, Prod.mk.injEq] at hstep
  obtain ⟨rfl, rfl⟩ := hstep
  obtain ⟨howns, hnext⟩ | ⟨howns, hhier, hnext⟩ | ⟨howns, hflat, hnext⟩ :=
    afterPass1_cases call slot <;> rw [hnext]
  · refine hinv.stampPass1 hslot hpc (by simp [Pc.level])
      (by simp [Pc.level]) (fun _ => rfl) ⟨howns, by omega⟩ ?_ trivial
      (fun _ heq => heq)
    intro level hlow other hfrom hto _
    obtain rfl : other = slot := by omega
    exact hlow
  · exact hinv.stampPass1 hslot hpc (by simp [Pc.level])
      (by simp [Pc.level]) (fun hleads => absurd hleads howns)
      ⟨hhier, howns⟩ (fun _ _ => trivial) trivial (fun _ heq => heq)
  · refine hinv.stampPass1 hslot hpc (by simp [Pc.level])
      (by simp [Pc.level]) (fun hleads => absurd hleads howns)
      ⟨?_, by simp [hflat]⟩ (fun _ _ => trivial) trivial (fun _ heq => heq)
    rintro rfl
    exact howns call.leader_zero

theorem awaitPass1_inv {member : ℕ} (hinv : Inv call trace before)
    (hslot : slot < call.participants)
    (hpc : before.pc slot = .awaitPass1 member)
    (hstep : stepSlot call before slot = some (after, event)) :
    Inv call (trace ++ event.toList) after := by
  have hlevel : before.level slot = 3 := level_of_pc hpc
  have hshape := hinv.control.shape slot hslot
  have hseen := hinv.control.seen slot hslot
  rw [hpc] at hshape hseen
  obtain ⟨howns, hless⟩ := hshape
  simp only [stepSlot, hpc] at hstep
  split at hstep
  next hmember =>
    split at hstep
    next => simp at hstep
    next hstamped =>
      obtain ⟨rfl, rfl⟩ := by simpa using hstep
      have hnext : nextMember slot (member + 1) = member + 1 :=
        if_neg (by omega)
      rw [hnext]
      have hbound : member < call.participants :=
        hmember.trans_le (call.groupEnd_le hslot)
      -- the stamp just read puts `member` beyond its first pass
      have hread : 3 ≤ before.level member := by
        by_contra hlow
        have := hinv.stamps.unstamped member hbound (by omega)
        omega
      refine hinv.stay hslot hpc rfl (by simp [Pc.level])
        (by simp [Crosses, Pc.level]) ⟨howns, by omega⟩ ?_ ?_ trivial
        (by simp) (by simp [History])
      · refine Seen.mono (level_mono rfl (by simp [hlevel, Pc.level])) ?_
        intro other hlow hhigh hend
        rcases Nat.lt_succ_iff_lt_or_eq.mp hhigh with hearlier | rfl
        · exact hseen other hlow hearlier hend
        · exact hread
      · intro _ other _ _
        simp [expected, Pc.level]
  next hall =>
    obtain ⟨rfl, rfl⟩ := by simpa using hstep
    have hgroup : ∀ other, slot < other → other < call.groupEnd slot →
        3 ≤ before.level other := by
      intro other hlow hhigh
      exact hseen other hlow.le (by omega) hhigh
    unfold afterAwait
    cases hhier : call.hierarchical with
    | true =>
        simp only [if_true]
        refine hinv.quiet hslot hpc rfl ?_
          ⟨howns, le_rfl, call.lt_groupEnd hslot⟩ trivial
          (by simp [Crosses, Pc.level]) (by simp [Crosses, Pc.level])
          (by simp [Crosses, Pc.level]) ?_ ?_ (by simp) (by simp [History])
        · refine ⟨?_, fun _ _ _ => hgroup, ?_, ?_, ?_⟩ <;>
            simp [hlevel, Pc.level]
        · intro _ other hother hleads
          have hle : slot ≤ other := hleads ▸ call.leader_le hother
          simp [expected, Pc.level, hle]
        · exact intervalFold_self.symm
    | false =>
        simp only [Bool.false_eq_true, if_false]
        refine hinv.quiet hslot hpc rfl ?_
          ⟨hhier, howns.symm.trans (call.leader_flat hhier slot)⟩ trivial
          (by simp [Crosses, Pc.level]) (by simp [Crosses, Pc.level])
          (by simp [Crosses, Pc.level]) ?_ trivial (by simp)
          (by simp [History])
        · refine ⟨?_, fun _ _ _ => hgroup, ?_, ?_, ?_⟩ <;>
            simp [hlevel, Pc.level]
        · intro _ other hother hleads
          simp [expected, Pc.level]

theorem loadFailed_inv (hinv : Inv call trace before)
    (hslot : slot < call.participants) (hpc : before.pc slot = .loadFailed)
    (hstep : stepSlot call before slot = some (after, event)) :
    Inv call (trace ++ event.toList) after := by
  have hshape := hinv.control.shape slot hslot
  rw [hpc] at hshape
  obtain ⟨hflat, rfl⟩ := hshape
  simp only [stepSlot, hpc, hinv.calm, Option.isSome_none, Bool.false_eq_true,
    if_false, Option.some.injEq, Prod.mk.injEq] at hstep
  obtain ⟨rfl, rfl⟩ := hstep
  refine hinv.stay hslot hpc rfl (by simp [Pc.level])
    (by simp [Crosses, Pc.level])
    ⟨call.leader_zero, le_rfl, call.lt_groupEnd hslot⟩ trivial ?_
    intervalFold_self.symm (by simp) (by simp [History])
  intro _ member _ _
  simp [expected, Pc.level]

/-! ### The leader's loop over its group -/

theorem expected_reduce {member next : ℕ} {acc : T} :
    expected call member (.reduce next acc) =
      if member < next then product call (call.leader member) member
      else call.partialOf member :=
  rfl

/-- Once the loop is through, the partials are prefixes within the group. -/
theorem expected_of_mid {member : ℕ} (hlow : 6 ≤ pc.level)
    (hhigh : pc.level ≤ 9) :
    expected call member pc = product call (call.leader member) member := by
  cases pc <;> simp_all [expected, Pc.level]

/-- Once the group is redistributed, they are prefixes of the whole scan. -/
theorem expected_of_high {member : ℕ} (hlow : 11 ≤ pc.level) :
    expected call member pc = product call 0 member := by
  cases pc <;> simp_all [expected, Pc.level]

/-- What the loop finds at the member it is about to replace. -/
theorem Inv.partial_at_reduce {member : ℕ} {acc : T}
    (hinv : Inv call trace before) (hslot : slot < call.participants)
    (hpc : before.pc slot = .reduce member acc) :
    call.leader member = slot ∧ member < call.participants ∧
      before.partials member = call.partialOf member := by
  have hshape := hinv.control.shape slot hslot
  rw [hpc] at hshape
  obtain ⟨howns, hlow, hhigh⟩ := hshape
  have hleader : call.leader member = slot := by
    rw [call.leader_of_mem hslot (howns.trans_le hlow) hhigh, howns]
  have hmember : member < call.participants :=
    hhigh.trans_le (call.groupEnd_le hslot)
  have hwritten : 3 ≤ before.level member :=
    hinv.control.ordered.group slot hslot howns
      (by simp [level_of_pc hpc, Pc.level]) member hlow hhigh
  refine ⟨hleader, hmember, ?_⟩
  rw [hinv.partials member hmember (by omega), hleader, hpc, expected_reduce,
    if_neg (lt_irrefl member)]

/-- One iteration of the loop, whatever comes after it. -/
theorem Inv.reduced {member : ℕ} {acc : T} (hinv : Inv call trace before)
    (hslot : slot < call.participants)
    (hpc : before.pc slot = .reduce member acc)
    (hlow : 5 ≤ pc.level) (hhigh : pc.level ≤ 9)
    (hhier : call.hierarchical = true → pc.level ≤ 6)
    (hshape : Shape call slot pc) (hseen : ∀ level, Seen call level slot pc)
    (hacc : Accumulated call before.clusterPrefixes slot pc)
    (hexpected : ∀ other < call.participants, call.leader other = slot →
      expected call other pc =
        if other < member + 1 then product call (call.leader other) other
        else call.partialOf other)
    (hmove : ∀ events, events = pass1Events slot →
      History call before.stopRequested slot pc events) :
    Inv call (trace ++ (none : Option (Event T)).toList)
      ((before.setPartial member acc).setPc slot pc) := by
  have hlevel : before.level slot = 5 := level_of_pc hpc
  have haccOld : acc = product call slot member := by
    have hold := hinv.totals.accumulated slot hslot
    rw [hpc] at hold
    exact hold
  obtain ⟨hleader, hmember, -⟩ := hinv.partial_at_reduce hslot hpc
  have hclimbs : Climbs call before slot pc.level := by
    refine ⟨by omega, by omega, ?_, by omega, by omega⟩
    rintro _ hpast rfl cluster hcluster hpos
    cases hengine : call.hierarchical with
    | true =>
        have := hhier hengine
        omega
    | false =>
        rw [call.numClusters_flat hengine] at hcluster
        omega
  apply hinv.move hslot (by simp [hpc, Pc.hasLeft]) rfl
  · exact hinv.control.move rfl hclimbs hshape (hseen _)
  · refine hinv.stamps.quiet hslot rfl rfl rfl rfl hclimbs.up ?_ ?_ ?_
    · simp [Crosses, hlevel]
    · intro _ hengine
      have := hhier hengine
      simp only [Crosses, List.mem_cons, List.not_mem_nil, or_false]
      omega
    · intro _
      simp only [Crosses, List.mem_cons, List.not_mem_nil, or_false]
      omega
  · refine hinv.partials.move rfl ?_ ?_
    · intro other hother hwritten hmine
      have hleads : call.leader other = slot := by
        rcases hmine with rfl | hleads
        · rw [← hleader, call.leader_leader hmember]
        · exact hleads
      by_cases hsame : other = member
      · subst hsame
        have hvalue := hexpected other hother hleads
        rw [if_pos (Nat.lt_succ_self other), hleads] at hvalue
        simp [State.setPc, State.setPartial, hleads, hvalue, haccOld]
      · have hlevelOther : 2 ≤ before.level other := by
          by_cases hself : other = slot
          · rw [hself]
            omega
          · simpa [State.level, State.setPc, State.setPartial, hself]
              using hwritten
        have hold := hinv.partials other hother hlevelOther
        rw [hleads, hpc, expected_reduce] at hold
        have hless : other < member + 1 ↔ other < member := by omega
        simp [State.setPc, State.setPartial, hsame, hold, hleads,
          hexpected other hother hleads, hless]
    · intro other _ _ hforeign
      have hne : other ≠ member := by
        rintro rfl
        exact hforeign hleader
      simp [State.setPc, State.setPartial, hne]
  · refine hinv.totals.quiet hinv.control rfl rfl rfl rfl rfl hacc ?_ ?_
    · intro _ hengine
      have := hhier hengine
      simp only [Crosses, List.mem_cons, List.not_mem_nil, or_false]
      omega
    · intro _
      simp only [Crosses, List.mem_cons, List.not_mem_nil, or_false]
      omega
  · simp
  · simpa [hpc, History] using hmove
  · rfl
  · exact hinv.cancelled
  · rfl
  · rfl

theorem reduce_inv {member : ℕ} {acc : T} (hinv : Inv call trace before)
    (hthrows : ∀ site, call.throws site = false)
    (hslot : slot < call.participants)
    (hpc : before.pc slot = .reduce member acc)
    (hstep : stepSlot call before slot = some (after, event)) :
    Inv call (trace ++ event.toList) after := by
  have hshape := hinv.control.shape slot hslot
  have hacc := hinv.totals.accumulated slot hslot
  rw [hpc] at hshape hacc
  obtain ⟨howns, hlow, hhigh⟩ := hshape
  obtain ⟨hleader, hmember, hstored⟩ := hinv.partial_at_reduce hslot hpc
  simp only [stepSlot, hpc, hthrows, Bool.false_eq_true, if_false,
    Option.some.injEq, Prod.mk.injEq] at hstep
  obtain ⟨rfl, rfl⟩ := hstep
  have hnextAcc : call.prefixFn acc (before.partials member) =
      product call slot (member + 1) := by
    rw [hstored, show acc = _ from hacc]
    exact (intervalFold_succ hlow).symm
  rw [hnextAcc]
  unfold nextReduce
  split
  next hmore =>
    exact hinv.reduced hslot hpc (by simp [Pc.level]) (by simp [Pc.level])
      (by simp [Pc.level]) ⟨howns, by omega, hmore⟩ (fun _ => trivial) rfl
      (fun _ _ _ => rfl) (fun _ heq => heq)
  next hlast =>
    have hend : call.groupEnd slot = member + 1 := by omega
    -- the loop is through, so every member of the group is behind it
    have hbehind : ∀ other < call.participants, call.leader other = slot →
        other < member + 1 := by
      intro other hother hleads
      rw [← hend, ← hleads, call.groupEnd_leader hother]
      exact call.lt_groupEnd hother
    unfold afterReduce
    cases hhier : call.hierarchical with
    | true =>
        simp only [if_true]
        refine hinv.reduced hslot hpc (by simp [Pc.level])
          (by simp [Pc.level]) (by simp [Pc.level]) ⟨hhier, howns⟩
          (fun _ => trivial) (by rw [← hend]; rfl) ?_ (fun _ heq => heq)
        intro other hother hleads
        rw [if_pos (hbehind other hother hleads),
          expected_of_mid (by simp [Pc.level]) (by simp [Pc.level])]
    | false =>
        simp only [Bool.false_eq_true, if_false]
        obtain rfl : slot = 0 :=
          howns.symm.trans (call.leader_flat hhier slot)
        refine hinv.reduced hslot hpc (by simp [Pc.level])
          (by simp [Pc.level]) (by simp [hhier]) rfl (fun _ => trivial)
          ⟨by rw [← hend, call.groupEnd_flat hhier], by simp [hhier]⟩ ?_
          (fun _ heq => heq)
        intro other hother hleads
        rw [if_pos (hbehind other hother hleads),
          expected_of_mid (by simp [Pc.level]) (by simp [Pc.level])]

/-! ### The totals of the clusters -/

/-- Publishing a cluster total, whatever the leader waits for next. -/
theorem Inv.totalPublished {localAcc : T} (hinv : Inv call trace before)
    (hslot : slot < call.participants)
    (hpc : before.pc slot = .publishTotal localAcc)
    (hlow : 7 ≤ pc.level) (hhigh : pc.level ≤ 9)
    (hsingle : slot = 0 → 8 ≤ pc.level → call.numClusters ≤ 1)
    (hshape : Shape call slot pc)
    (hseen : ∀ level : ℕ → ℕ, 7 ≤ level slot → Seen call level slot pc)
    (hacc : Accumulated call before.clusterPrefixes slot pc)
    (hmove : ∀ events, events = pass1Events slot →
      History call before.stopRequested slot pc events) :
    Inv call (trace ++ (none : Option (Event T)).toList)
      (({ before with
          clusterTotals := Function.update before.clusterTotals
            (call.cluster slot) localAcc }.stampClusterOf
        (call.cluster slot) 1).setPc slot pc) := by
  have hlevel : before.level slot = 6 := level_of_pc hpc
  have howns : call.leader slot = slot := by
    have hold := hinv.control.shape slot hslot
    rw [hpc] at hold
    exact hold.2
  have htotal : localAcc = product call slot (call.groupEnd slot) := by
    have hold := hinv.totals.accumulated slot hslot
    rw [hpc] at hold
    exact hold
  -- two leaders never share a cluster
  have hforeign : ∀ leader, call.leader leader = leader → leader ≠ slot →
      call.cluster leader ≠ call.cluster slot := by
    intro leader hleads hne hsame
    exact hne (call.leader_inj hleads howns hsame)
  have hclimbs : Climbs call before slot pc.level := by
    refine ⟨by omega, by omega, ?_, by omega, by omega⟩
    rintro _ hpast rfl cluster hcluster hpos
    have := hsingle rfl hpast
    omega
  have hfar : slot = 0 → ¬ Crosses [10, 17] (before.level slot) pc.level := by
    intro _
    simp only [Crosses, List.mem_cons, List.not_mem_nil, or_false]
    omega
  apply hinv.move hslot (by simp [hpc, Pc.hasLeft]) rfl
  · exact hinv.control.move rfl hclimbs hshape
      (hseen _ (by simpa [State.level, State.setPc] using hlow))
  · refine hinv.stamps.move rfl (fun _ _ => rfl) (by omega) ?_ ?_ ?_
    · intro _
      exact hinv.stamps.stamped slot hslot (by omega)
    · intro hhier leader hleader hleads
      by_cases hsame : leader = slot
      · subst hsame
        have hone : stampAt pc.level = 1 := by
          simp [stampAt, hlow, show ¬ 12 ≤ pc.level by omega]
        simp [State.setPc, State.stampClusterOf, State.level, hone]
      · simpa [State.setPc, State.stampClusterOf, State.level, hsame,
          hforeign leader hleads hsame] using
          hinv.stamps.cluster hhier leader hleader hleads
    · refine hinv.stamps.published_quiet rfl rfl hclimbs.up ?_
      intro _
      simp only [Crosses, List.mem_cons, List.not_mem_nil, or_false]
      omega
  · refine hinv.partials.quiet rfl rfl (by simp [Crosses, hlevel]) ?_
    intro _ member _ _
    rw [expected_of_mid (by omega) hhigh, hpc,
      expected_of_mid (by simp [Pc.level]) (by simp [Pc.level])]
  · constructor
    · exact hinv.totals.accumulated_move hinv.control rfl (.inr rfl) hacc
    · intro hhier leader hleader hleads hpast
      by_cases hsame : leader = slot
      · subst hsame
        simp [State.setPc, State.stampClusterOf, htotal]
      · have hpastOld : 7 ≤ before.level leader := by
          simpa [State.level, State.setPc, State.stampClusterOf, hsame]
            using hpast
        simpa [State.setPc, State.stampClusterOf,
          hforeign leader hleads hsame] using
          hinv.totals.totals hhier leader hleader hleads hpastOld
    · intro hhier hpast
      exact hinv.totals.prefixes hhier
        (level_zero_of_update rfl hfar (by simp) hpast)
    · intro hpast
      exact hinv.totals.acc (level_zero_of_update rfl hfar (by simp) hpast)
    · intro hpast hwhy
      exact hinv.totals.inclusive
        (level_zero_of_update rfl hfar (by simp) hpast)
        (hwhy.imp id (level_zero_of_update rfl hfar (by simp)))
  · simp
  · simpa [hpc, History] using hmove
  · rfl
  · exact hinv.cancelled
  · rfl
  · rfl

theorem publishTotal_inv {localAcc : T} (hinv : Inv call trace before)
    (hslot : slot < call.participants)
    (hpc : before.pc slot = .publishTotal localAcc)
    (hstep : stepSlot call before slot = some (after, event)) :
    Inv call (trace ++ event.toList) after := by
  have hshape := hinv.control.shape slot hslot
  rw [hpc] at hshape
  obtain ⟨hhier, howns⟩ := hshape
  simp only [stepSlot, hpc, Option.some.injEq, Prod.mk.injEq] at hstep
  obtain ⟨rfl, rfl⟩ := hstep
  by_cases hfirst : slot = 0
  · subst hfirst
    rw [if_pos rfl]
    unfold nextCluster
    split
    next hmore =>
      refine hinv.totalPublished hslot hpc (by simp [Pc.level])
        (by simp [Pc.level]) (by simp [Pc.level]) ⟨hhier, rfl, le_rfl, hmore⟩
        ?_ trivial (fun _ heq => heq)
      intro level hlow other hother
      obtain rfl : other = 0 := by omega
      rwa [call.clusterFirst_zero]
    next hsingle =>
      exact hinv.totalPublished hslot hpc (by simp [Pc.level])
        (by simp [Pc.level]) (fun _ _ => by omega)
        ⟨hhier, rfl, call.numClusters_pos⟩ (fun _ _ => trivial)
        ⟨by rw [call.clusterFirst_zero, product, intervalFold_self], by simp⟩
        (fun _ heq => heq)
  · rw [if_neg hfirst]
    exact hinv.totalPublished hslot hpc (by simp [Pc.level])
      (by simp [Pc.level]) (fun hzero => absurd hzero hfirst)
      ⟨hfirst, fun _ => howns⟩ (fun _ _ => trivial) trivial
      (fun _ heq => heq)

theorem awaitCluster_inv {cluster : ℕ} (hinv : Inv call trace before)
    (hslot : slot < call.participants)
    (hpc : before.pc slot = .awaitCluster cluster)
    (hstep : stepSlot call before slot = some (after, event)) :
    Inv call (trace ++ event.toList) after := by
  have hlevel : before.level slot = 7 := level_of_pc hpc
  have hshape := hinv.control.shape slot hslot
  have hseen := hinv.control.seen slot hslot
  rw [hpc] at hshape hseen
  obtain ⟨hhier, rfl, hone, hcluster⟩ := hshape
  simp only [stepSlot, hpc] at hstep
  split at hstep
  next => simp at hstep
  next hstamped =>
    obtain ⟨rfl, rfl⟩ := by simpa using hstep
    -- the stamp just read puts the cluster's leader beyond its total
    have hread : 7 ≤ before.level (call.clusterFirst cluster) := by
      have hstamp := hinv.stamps.cluster hhier (call.clusterFirst cluster)
        (call.clusterFirst_lt_participants hcluster)
        (call.leader_clusterFirst hcluster)
      rw [call.cluster_clusterFirst hcluster] at hstamp
      by_contra hlow
      simp [stampAt, hlow, show ¬ 12 ≤ before.level
        (call.clusterFirst cluster) by omega] at hstamp
      omega
    have hall : ∀ other < cluster + 1,
        7 ≤ before.level (call.clusterFirst other) := by
      intro other hother
      rcases Nat.lt_succ_iff_lt_or_eq.mp hother with hearlier | rfl
      · exact hseen other hearlier
      · exact hread
    have hexpected : ∀ next : Pc T, 7 ≤ next.level → next.level ≤ 9 →
        ∀ member, expected call member next =
          expected call member (.awaitCluster cluster) := by
      intro next hlow hhigh member
      rw [expected_of_mid (by omega) hhigh,
        expected_of_mid (by simp [Pc.level]) (by simp [Pc.level])]
    unfold nextCluster
    split
    next hmore =>
      refine hinv.stay hslot hpc rfl (by simp [Pc.level])
        (by simp [Crosses, Pc.level]) ⟨hhier, rfl, by omega, hmore⟩ ?_
        (fun _ member _ _ =>
          hexpected _ (by simp [Pc.level]) (by simp [Pc.level]) member)
        trivial (by simp) (by simp [History])
      exact Seen.mono (level_mono rfl (by simp [hlevel, Pc.level])) hall
    next hlast =>
      refine hinv.quiet hslot hpc rfl ?_ ⟨hhier, rfl, by omega⟩ trivial
        (by simp [Crosses, Pc.level]) (by simp [Crosses, Pc.level])
        (by simp [Crosses, Pc.level])
        (fun _ member _ _ =>
          hexpected _ (by simp [Pc.level]) (by simp [Pc.level]) member)
        ⟨by rw [call.clusterFirst_zero, product, intervalFold_self], by simp⟩ (by simp)
        (by simp [History])
      refine ⟨by simp [hlevel, Pc.level], by simp [hlevel], ?_,
        by simp [Pc.level], by simp [Pc.level]⟩
      intro _ _ _ other hother _
      exact hall other (by omega)

/-- One cluster of slot 0's combine, whatever comes after it. -/
theorem Inv.crossed {cluster : ℕ} {globalAcc : T} (hinv : Inv call trace before)
    (hslot : slot < call.participants)
    (hpc : before.pc slot = .crossReduce cluster globalAcc)
    (hlow : 8 ≤ pc.level) (hhigh : pc.level ≤ 9) (hzero : slot = 0)
    (hshape : Shape call slot pc) (hseen : ∀ level, Seen call level slot pc)
    (hacc : Accumulated call
      (Function.update before.clusterPrefixes cluster globalAcc) slot pc)
    (hmove : ∀ events, events = pass1Events slot →
      History call before.stopRequested slot pc events) :
    Inv call (trace ++ (none : Option (Event T)).toList)
      ({ before with
        clusterPrefixes := Function.update before.clusterPrefixes cluster
          globalAcc }.setPc slot pc) := by
  have hlevel : before.level slot = 8 := level_of_pc hpc
  have hclimbs : Climbs call before slot pc.level :=
    ⟨by omega, by omega, by omega, by omega, by omega⟩
  have hfar : ∀ bounds : List ℕ, (∀ bound ∈ bounds, bound ≤ 8 ∨ 9 < bound) →
      ¬ Crosses bounds (before.level slot) pc.level := by
    rintro bounds hbounds ⟨bound, hmem, hless, hpast⟩
    have := hbounds bound hmem
    omega
  apply hinv.move hslot (by simp [hpc, Pc.hasLeft]) rfl
  · exact hinv.control.move rfl hclimbs hshape (hseen _)
  · exact hinv.stamps.quiet hslot rfl rfl rfl rfl hclimbs.up
      (hfar _ (by simp)) (fun _ _ => hfar _ (by simp))
      (fun _ => hfar _ (by simp))
  · refine hinv.partials.quiet rfl rfl (hfar _ (by simp)) ?_
    intro _ member _ _
    rw [expected_of_mid (by omega) hhigh, hpc,
      expected_of_mid (by simp [Pc.level]) (by simp [Pc.level])]
  · have hback : ∀ bound ∈ [10, 17],
        bound ≤ State.level ({ before with
          clusterPrefixes := Function.update before.clusterPrefixes cluster
            globalAcc }.setPc slot pc) 0 → bound ≤ before.level 0 :=
      fun _ hmem => level_zero_of_update rfl (fun _ => hfar _ (by simp)) hmem
    have hstill : ¬ 10 ≤ before.level 0 := by
      rw [← hzero]
      omega
    constructor
    · exact hinv.totals.accumulated_move hinv.control rfl (.inl hzero) hacc
    · intro hhier leader hleader hleads hpast
      refine hinv.totals.totals hhier leader hleader hleads ?_
      by_cases hsame : leader = slot
      · rw [hsame]
        omega
      · simpa [State.level, State.setPc, hsame] using hpast
    · exact fun _ hpast => absurd (hback 10 (by simp) hpast) hstill
    · exact fun hpast => absurd (hback 10 (by simp) hpast) hstill
    · exact fun hpast => absurd (hback 10 (by simp) hpast) hstill
  · simp
  · simpa [hpc, History] using hmove
  · rfl
  · exact hinv.cancelled
  · rfl
  · rfl

theorem crossReduce_inv {cluster : ℕ} {globalAcc : T}
    (hinv : Inv call trace before)
    (hthrows : ∀ site, call.throws site = false) (hmonoid : call.IsMonoid)
    (hslot : slot < call.participants)
    (hpc : before.pc slot = .crossReduce cluster globalAcc)
    (hstep : stepSlot call before slot = some (after, event)) :
    Inv call (trace ++ event.toList) after := by
  have hlevel : before.level slot = 8 := level_of_pc hpc
  have hshape := hinv.control.shape slot hslot
  have hacc := hinv.totals.accumulated slot hslot
  rw [hpc] at hshape hacc
  obtain ⟨hhier, rfl, hcluster⟩ := hshape
  obtain ⟨hglobal, hearlier⟩ := hacc
  simp only [stepSlot, hpc, hthrows, Bool.false_eq_true, if_false,
    Option.some.injEq, Prod.mk.injEq] at hstep
  obtain ⟨rfl, rfl⟩ := hstep
  have htotal : before.clusterTotals cluster =
      product call (call.clusterFirst cluster)
        (call.clusterFirst (cluster + 1)) := by
    have htotals := hinv.totals.totals hhier (call.clusterFirst cluster)
      (call.clusterFirst_lt_participants hcluster)
      (call.leader_clusterFirst hcluster)
      (hinv.control.ordered.clusters hlevel.ge cluster hcluster)
    unfold Call.groupEnd at htotals
    rwa [call.cluster_clusterFirst hcluster] at htotals
  have hnextAcc : call.prefixFn globalAcc (before.clusterTotals cluster) =
      product call 0 (call.clusterFirst (cluster + 1)) := by
    rw [htotal, hglobal]
    exact intervalFold_append hmonoid (Nat.zero_le _)
      (call.clusterFirst_lt hcluster).le
  have hstored : ∀ other < cluster + 1,
      Function.update before.clusterPrefixes cluster globalAcc other =
        product call 0 (call.clusterFirst other) := by
    intro other hother
    rcases Nat.lt_succ_iff_lt_or_eq.mp hother with hless | rfl
    · simpa [hless.ne] using hearlier other hless
    · simpa using hglobal
  unfold nextCross
  split
  next hmore =>
    exact hinv.crossed hslot hpc (by simp [Pc.level]) (by simp [Pc.level])
      rfl ⟨hhier, rfl, hmore⟩ (fun _ => trivial) ⟨hnextAcc, hstored⟩
      (fun _ heq => heq)
  next hlast =>
    have hend : cluster + 1 = call.numClusters := by omega
    refine hinv.crossed hslot hpc (by simp [Pc.level]) (by simp [Pc.level])
      rfl rfl (fun _ => trivial) ⟨?_, ?_⟩ (fun _ heq => heq)
    · rw [hnextAcc, hend, call.clusterFirst_end]
    · intro _ other hother
      exact hstored other (by omega)

/-! ### The prefixes -/

/-- Publishing the prefixes, whatever slot 0 does next. -/
theorem Inv.prefixesOut {acc : T} (hinv : Inv call trace before)
    (hslot : slot < call.participants)
    (hpc : before.pc slot = .publishPrefixes acc)
    (hlow : 10 ≤ pc.level) (hhigh : pc.level ≤ 12)
    (hhier : call.hierarchical = true → pc.level < 12)
    (hshape : Shape call slot pc) (hseen : ∀ level, Seen call level slot pc)
    (hacc : Accumulated call before.clusterPrefixes slot pc)
    (hexpected : ∀ member < call.participants, call.leader member = slot →
      expected call member pc = product call (call.leader member) member)
    (hmove : ∀ events, events = pass1Events slot →
      History call before.stopRequested slot pc events) :
    Inv call (trace ++ (none : Option (Event T)).toList)
      ({ before with
        acc := acc
        inclusiveTotal := if call.hierarchical then acc
          else before.inclusiveTotal
        prefixesPublished := true }.setPc slot pc) := by
  have hlevel : before.level slot = 9 := level_of_pc hpc
  obtain rfl : slot = 0 := by
    have hold := hinv.control.shape slot hslot
    rwa [hpc] at hold
  have haccOld := hinv.totals.accumulated 0 hslot
  rw [hpc] at haccOld
  obtain ⟨htotal, hprefixes⟩ := haccOld
  have hclimbs : Climbs call before 0 pc.level :=
    ⟨by omega, by omega, by omega, fun _ _ => .inl rfl,
      fun _ _ => .inl call.leader_zero⟩
  apply hinv.move hslot (by simp [hpc, Pc.hasLeft]) rfl
  · exact hinv.control.move rfl hclimbs hshape (hseen _)
  · refine hinv.stamps.move rfl (fun _ _ => rfl) (by omega) ?_ ?_ ?_
    · intro _
      exact hinv.stamps.stamped 0 hslot (by omega)
    · refine hinv.stamps.cluster_quiet rfl rfl hclimbs.up ?_
      intro _ hengine
      have := hhier hengine
      simp only [Crosses, List.mem_cons, List.not_mem_nil, or_false]
      omega
    · simp [State.setPc, State.level, hlow]
  · refine hinv.partials.quiet rfl rfl (by simp [Crosses, hlevel]) ?_
    intro _ member hmember hleads
    rw [hexpected member hmember hleads, hpc,
      expected_of_mid (by simp [Pc.level]) (by simp [Pc.level])]
  · constructor
    · exact hinv.totals.accumulated_move hinv.control rfl (.inl rfl) hacc
    · intro hengine leader hleader hleads hpast
      refine hinv.totals.totals hengine leader hleader hleads ?_
      by_cases hsame : leader = 0
      · rw [hsame]
        omega
      · simpa [State.level, State.setPc, hsame] using hpast
    · exact fun hengine _ => hprefixes hengine
    · exact fun _ => htotal
    · intro _ hwhy
      have hengine : call.hierarchical = true := by
        refine hwhy.resolve_right ?_
        simp only [State.level, State.setPc, Function.update_self]
        omega
      simp [State.setPc, hengine, htotal]
  · simp
  · simpa [hpc, History] using hmove
  · rfl
  · exact hinv.cancelled
  · rfl
  · rfl

theorem publishPrefixes_inv {acc : T} (hinv : Inv call trace before)
    (hslot : slot < call.participants)
    (hpc : before.pc slot = .publishPrefixes acc)
    (hstep : stepSlot call before slot = some (after, event)) :
    Inv call (trace ++ event.toList) after := by
  have hshape := hinv.control.shape slot hslot
  have hacc := hinv.totals.accumulated slot hslot
  rw [hpc] at hshape hacc
  obtain rfl : slot = 0 := hshape
  simp only [stepSlot, hpc, Option.some.injEq, Prod.mk.injEq] at hstep
  obtain ⟨rfl, rfl⟩ := hstep
  unfold afterPublished
  cases hhier : call.hierarchical with
  | true =>
      simp only [if_true]
      have hpre := hacc.2 hhier (call.cluster 0) (call.cluster_lt hslot)
      have hmove := hinv.prefixesOut hslot hpc
        (by simp [Pc.level] : 10 ≤ (Pc.combine 0
          (before.clusterPrefixes (call.cluster 0))).level)
        (by simp [Pc.level]) (by simp [Pc.level])
        ⟨hhier, call.leader_zero, le_rfl, call.lt_groupEnd hslot⟩
        (fun _ => trivial) (hpre.trans (by
          show product call 0 (call.leader 0) = _
          rw [call.leader_zero]))
        (by simp [expected]) (fun _ heq => heq)
      simpa [hhier] using hmove
  | false =>
      simp only [Bool.false_eq_true, if_false]
      have hmove := hinv.prefixesOut hslot hpc
        (by simp [Pc.level] : 10 ≤ (Pc.loadCancelled : Pc T).level)
        (by simp [Pc.level]) (by simp [hhier]) trivial (fun _ => trivial)
        trivial
        (by
          intro member _ hleads
          rw [expected_of_high (by simp [Pc.level]), hleads])
        (fun _ heq => heq)
      simpa [hhier] using hmove

/-- In the flat engine slot 0 goes straight to its gate. -/
theorem Control.flat_ready (hcontrol : Control call before)
    (hflat : call.hierarchical = false) (hpast : 10 ≤ before.level 0) :
    12 ≤ before.level 0 := by
  have htwo := call.two_le
  have hshape := hcontrol.shape 0 (by omega)
  unfold State.level at hpast ⊢
  cases hpc : before.pc 0 <;> rw [hpc] at hshape hpast <;>
    simp_all [Shape, Pc.level]

theorem awaitPrefixes_inv (hinv : Inv call trace before)
    (hslot : slot < call.participants)
    (hpc : before.pc slot = .awaitPrefixes)
    (hstep : stepSlot call before slot = some (after, event)) :
    Inv call (trace ++ event.toList) after := by
  have hlevel : before.level slot = 9 := level_of_pc hpc
  have hshape := hinv.control.shape slot hslot
  rw [hpc] at hshape
  obtain ⟨hfirst, howns⟩ := hshape
  simp only [stepSlot, hpc] at hstep
  split at hstep
  next hpublished =>
    obtain ⟨rfl, rfl⟩ := by simpa using hstep
    have hzero : 10 ≤ before.level 0 := hinv.stamps.published.mp hpublished
    unfold afterPublished
    cases hhier : call.hierarchical with
    | true =>
        simp only [if_true]
        have hleads := howns hhier
        have hpre := hinv.totals.prefixes hhier hzero (call.cluster slot)
          (call.cluster_lt hslot)
        refine hinv.quiet hslot hpc rfl ?_
          ⟨hhier, hleads, le_rfl, call.lt_groupEnd hslot⟩ trivial
          (by simp [Crosses, Pc.level]) (by simp [Crosses, Pc.level])
          (fun h => absurd h hfirst) ?_ ?_ (by simp) (by simp [History])
        · exact ⟨by simp [hlevel, Pc.level], by simp [hlevel],
            by simp [hlevel], fun _ _ => .inr hzero, fun _ _ => .inl hleads⟩
        · intro _ member hmember hmine
          have hle : slot ≤ member := hmine ▸ call.leader_le hmember
          simp [expected, Pc.level, hle]
        · refine hpre.trans ?_
          show product call 0 (call.leader slot) = _
          rw [hleads]
    | false =>
        simp only [Bool.false_eq_true, if_false]
        have hleader := call.leader_flat hhier slot
        have hready : 12 ≤ before.level (call.leader slot) := by
          rw [hleader]
          exact hinv.control.flat_ready hhier hzero
        refine hinv.quiet hslot hpc rfl ?_ trivial trivial
          (by simp [Crosses, Pc.level]) (by simp [hhier])
          (fun h => absurd h hfirst) ?_ trivial (by simp) (by simp [History])
        · exact ⟨by simp [hlevel, Pc.level], by simp [hlevel],
            by simp [hlevel], fun _ _ => .inr hzero, fun _ _ => .inr hready⟩
        · intro hleads
          exact absurd (hleads.symm.trans hleader) hfirst
  next => simp at hstep

/-! ### The redistribution -/

theorem expected_combine {member next : ℕ} {cPrefix : T} :
    expected call member (.combine next cPrefix) =
      if member < next then product call 0 member
      else product call (call.leader member) member :=
  rfl

/-- One iteration of the redistribution, whatever comes after it. -/
theorem Inv.combined {member : ℕ} {cPrefix value : T}
    (hinv : Inv call trace before) (hslot : slot < call.participants)
    (hpc : before.pc slot = .combine member cPrefix)
    (hvalue : value = product call 0 member)
    (hlow : 10 ≤ pc.level) (hhigh : pc.level ≤ 11)
    (hshape : Shape call slot pc) (hseen : ∀ level, Seen call level slot pc)
    (hacc : Accumulated call before.clusterPrefixes slot pc)
    (hexpected : ∀ other < call.participants, call.leader other = slot →
      expected call other pc =
        if other < member + 1 then product call 0 other
        else product call (call.leader other) other)
    (hmove : ∀ events, events = pass1Events slot →
      History call before.stopRequested slot pc events) :
    Inv call (trace ++ (none : Option (Event T)).toList)
      ((before.setPartial member value).setPc slot pc) := by
  have hlevel : before.level slot = 10 := level_of_pc hpc
  obtain ⟨hhier, howns, hfrom, hto⟩ : Shape call slot (.combine member cPrefix) := by
    have hold := hinv.control.shape slot hslot
    rwa [hpc] at hold
  have hleader : call.leader member = slot := by
    rw [call.leader_of_mem hslot (howns.trans_le hfrom) hto, howns]
  have hclimbs : Climbs call before slot pc.level :=
    ⟨by omega, by omega, by omega, by omega, by omega⟩
  have hfar : ∀ bounds : List ℕ,
      (∀ bound ∈ bounds, bound ≤ 10 ∨ 11 < bound) →
        ¬ Crosses bounds (before.level slot) pc.level := by
    rintro bounds hbounds ⟨bound, hmem, hless, hpast⟩
    have := hbounds bound hmem
    omega
  apply hinv.move hslot (by simp [hpc, Pc.hasLeft]) rfl
  · exact hinv.control.move rfl hclimbs hshape (hseen _)
  · exact hinv.stamps.quiet hslot rfl rfl rfl rfl hclimbs.up
      (hfar _ (by simp)) (fun _ _ => hfar _ (by simp))
      (fun _ => hfar _ (by simp))
  · refine hinv.partials.move rfl ?_ ?_
    · intro other hother hwritten hmine
      have hleads : call.leader other = slot := by
        rcases hmine with rfl | hleads
        · exact howns
        · exact hleads
      by_cases hsame : other = member
      · subst hsame
        have hnew := hexpected other hother hleads
        rw [if_pos (Nat.lt_succ_self other)] at hnew
        simp [State.setPc, State.setPartial, hleads, hnew, hvalue]
      · have hlevelOther : 2 ≤ before.level other := by
          by_cases hself : other = slot
          · rw [hself]
            omega
          · simpa [State.level, State.setPc, State.setPartial, hself]
              using hwritten
        have hold := hinv.partials other hother hlevelOther
        rw [hleads, hpc, expected_combine] at hold
        have hless : other < member + 1 ↔ other < member := by omega
        simp [State.setPc, State.setPartial, hsame, hold, hleads,
          hexpected other hother hleads, hless]
    · intro other _ _ hforeign
      have hne : other ≠ member := by
        rintro rfl
        exact hforeign hleader
      simp [State.setPc, State.setPartial, hne]
  · exact hinv.totals.quiet hinv.control rfl rfl rfl rfl rfl hacc
      (fun _ _ => hfar _ (by simp)) (fun _ => hfar _ (by simp))
  · simp
  · simpa [hpc, History] using hmove
  · rfl
  · exact hinv.cancelled
  · rfl
  · rfl

theorem combine_inv {member : ℕ} {cPrefix : T} (hinv : Inv call trace before)
    (hthrows : ∀ site, call.throws site = false) (hmonoid : call.IsMonoid)
    (hslot : slot < call.participants)
    (hpc : before.pc slot = .combine member cPrefix)
    (hstep : stepSlot call before slot = some (after, event)) :
    Inv call (trace ++ event.toList) after := by
  obtain ⟨hhier, howns, hfrom, hto⟩ : Shape call slot (.combine member cPrefix) := by
    have hold := hinv.control.shape slot hslot
    rwa [hpc] at hold
  have hpre : cPrefix = product call 0 slot := by
    have hold := hinv.totals.accumulated slot hslot
    rw [hpc] at hold
    exact hold
  have hleader : call.leader member = slot := by
    rw [call.leader_of_mem hslot (howns.trans_le hfrom) hto, howns]
  have hmember : member < call.participants :=
    hto.trans_le (call.groupEnd_le hslot)
  have hwritten : 3 ≤ before.level member :=
    hinv.control.ordered.group slot hslot howns
      (by simp [level_of_pc hpc, Pc.level]) member hfrom hto
  have hstored : before.partials member = product call slot member := by
    rw [hinv.partials member hmember (by omega), hleader, hpc,
      expected_combine, if_neg (lt_irrefl member), hleader]
  simp only [stepSlot, hpc, hthrows, Bool.false_eq_true, if_false,
    Option.some.injEq, Prod.mk.injEq] at hstep
  obtain ⟨rfl, rfl⟩ := hstep
  have hvalue : call.prefixFn cPrefix (before.partials member) =
      product call 0 member := by
    rw [hpre, hstored]
    exact intervalFold_append hmonoid (Nat.zero_le _) hfrom
  unfold nextCombine
  split
  next hmore =>
    exact hinv.combined hslot hpc hvalue (by simp [Pc.level])
      (by simp [Pc.level]) ⟨hhier, howns, by omega, hmore⟩
      (fun _ => trivial) hpre (fun _ _ _ => rfl) (fun _ heq => heq)
  next hlast =>
    have hend : call.groupEnd slot = member + 1 := by omega
    refine hinv.combined hslot hpc hvalue (by simp [Pc.level])
      (by simp [Pc.level]) ⟨hhier, howns⟩ (fun _ => trivial) trivial ?_
      (fun _ heq => heq)
    intro other hother hleads
    have hbehind : other < member + 1 := by
      rw [← hend, ← hleads, call.groupEnd_leader hother]
      exact call.lt_groupEnd hother
    rw [if_pos hbehind, expected_of_high (by simp [Pc.level])]

theorem stampCluster_inv (hinv : Inv call trace before)
    (hslot : slot < call.participants)
    (hpc : before.pc slot = .stampCluster)
    (hstep : stepSlot call before slot = some (after, event)) :
    Inv call (trace ++ event.toList) after := by
  have hlevel : before.level slot = 11 := level_of_pc hpc
  obtain ⟨hhier, howns⟩ : Shape call slot (.stampCluster : Pc T) := by
    have hold := hinv.control.shape slot hslot
    rwa [hpc] at hold
  simp only [stepSlot, hpc, Option.some.injEq, Prod.mk.injEq] at hstep
  obtain ⟨rfl, rfl⟩ := hstep
  have hclimbs : Climbs call before slot (Pc.loadCancelled : Pc T).level :=
    ⟨by simp [hlevel, Pc.level], by simp [hlevel], by simp [hlevel],
      by simp [hlevel], fun _ _ => .inl howns⟩
  apply hinv.move hslot (by simp [hpc, Pc.hasLeft]) rfl
  · exact hinv.control.move rfl hclimbs trivial trivial
  · refine hinv.stamps.move rfl (fun _ _ => rfl) (by simp [Pc.level]) ?_ ?_ ?_
    · intro _
      exact hinv.stamps.stamped slot hslot (by omega)
    · intro _ leader hleader hleads
      by_cases hsame : leader = slot
      · subst hsame
        simp [State.setPc, State.stampClusterOf, State.level, stampAt, Pc.level]
      · have hne : call.cluster leader ≠ call.cluster slot :=
          fun heq => hsame (call.leader_inj hleads howns heq)
        simpa [State.setPc, State.stampClusterOf, State.level, hsame, hne]
          using hinv.stamps.cluster hhier leader hleader hleads
    · exact hinv.stamps.published_quiet rfl rfl hclimbs.up
        (fun _ => by simp [Crosses, hlevel])
  · refine hinv.partials.quiet rfl rfl (by simp [Crosses, hlevel]) ?_
    intro _ member _ _
    rw [hpc, expected_of_high (by simp [Pc.level]),
      expected_of_high (by simp [Pc.level])]
  · exact hinv.totals.quiet hinv.control rfl rfl rfl rfl rfl trivial
      (fun _ _ => by simp [Crosses, hlevel])
      (fun _ => by simp [Crosses, hlevel, Pc.level])
  · simp
  · simp [hpc, History]
  · rfl
  · exact hinv.cancelled
  · rfl
  · rfl

theorem awaitCombined_inv (hinv : Inv call trace before)
    (hslot : slot < call.participants)
    (hpc : before.pc slot = .awaitCombined)
    (hstep : stepSlot call before slot = some (after, event)) :
    Inv call (trace ++ event.toList) after := by
  have hlevel : before.level slot = 9 := level_of_pc hpc
  obtain ⟨hhier, howns⟩ : Shape call slot (.awaitCombined : Pc T) := by
    have hold := hinv.control.shape slot hslot
    rwa [hpc] at hold
  simp only [stepSlot, hpc] at hstep
  split at hstep
  next => simp at hstep
  next hstamped =>
    obtain ⟨rfl, rfl⟩ := by simpa using hstep
    -- the stamp just read puts the leader beyond its redistribution
    have hready : 12 ≤ before.level (call.leader slot) := by
      have hstamp := hinv.stamps.cluster hhier (call.leader slot)
        (call.leader_lt hslot) (call.leader_leader hslot)
      rw [call.cluster_leader hslot] at hstamp
      by_contra hlow
      rw [stampAt, if_neg hlow] at hstamp
      split at hstamp <;> omega
    have hzero : 10 ≤ before.level 0 :=
      hinv.control.ordered.published (call.leader slot) (call.leader_lt hslot)
        (by omega)
    refine hinv.quiet hslot hpc rfl ?_ trivial trivial
      (by simp [Crosses, Pc.level]) (fun hleads => absurd hleads howns) ?_
      (fun hleads => absurd hleads howns) trivial (by simp) (by simp [History])
    · exact ⟨by simp [hlevel, Pc.level], by simp [hlevel], by simp [hlevel],
        fun _ _ => .inr hzero, fun _ _ => .inr hready⟩
    · rintro rfl
      exact absurd call.leader_zero howns

/-! ### The second pass -/

/-- A move beyond the gate that stores nothing. -/
theorem Inv.beyondGate (hinv : Inv call trace before)
    (hslot : slot < call.participants) (hold : before.pc slot = old)
    (hlow : 12 ≤ old.level) (hup : old.level ≤ pc.level)
    (hhigh : pc.level ≤ 16) (hshape : Shape call slot pc)
    (hseen : ∀ level, Seen call level slot pc)
    (hacc : Accumulated call before.clusterPrefixes slot pc)
    (hevent : ∀ emitted ∈ event, emitted.passOf = some slot)
    (hmove : ∀ events, History call before.stopRequested slot old events →
      History call before.stopRequested slot pc (events ++ event.toList)) :
    Inv call (trace ++ event.toList) (before.setPc slot pc) := by
  have hrunning : old.hasLeft = false := by
    cases old <;> simp_all [Pc.hasLeft, Pc.level]
    omega
  refine hinv.stay hslot hold hrunning hup ?_ hshape (hseen _) ?_ hacc hevent
    hmove
  · simp only [Crosses, List.mem_cons, List.not_mem_nil, or_false]
    omega
  · intro _ member _ _
    rw [expected_of_high (by omega), expected_of_high (by omega)]

theorem loadCancelled_inv (hinv : Inv call trace before)
    (hslot : slot < call.participants)
    (hpc : before.pc slot = .loadCancelled)
    (hstep : stepSlot call before slot = some (after, event)) :
    Inv call (trace ++ event.toList) after := by
  simp only [stepSlot, hpc] at hstep
  split at hstep
  next hcancelled =>
    obtain ⟨rfl, rfl⟩ := by simpa using hstep
    exact hinv.beyondGate hslot hpc (by simp [Pc.level]) (by simp [Pc.level])
      (by simp [Pc.level]) trivial (fun _ => trivial) trivial (by simp)
      (by simp [History, hinv.cancelled hcancelled])
  next =>
    obtain ⟨rfl, rfl⟩ := by simpa using hstep
    exact hinv.beyondGate hslot hpc (by simp [Pc.level]) (by simp [Pc.level])
      (by simp [Pc.level]) trivial (fun _ => trivial) trivial (by simp)
      (by simp [History])

/-- What a slot in front of its second pass finds in its partial. -/
theorem Inv.partial_at_gate (hinv : Inv call trace before)
    (hslot : slot < call.participants) (hpast : 12 ≤ before.level slot) :
    before.partials slot = product call 0 slot := by
  have hready := hinv.control.ordered.combined slot hslot hpast
  rw [hinv.partials slot hslot (by omega)]
  exact expected_of_high (by unfold State.level at hready; omega)

theorem pollToken_inv (hinv : Inv call trace before)
    (hslot : slot < call.participants) (hpc : before.pc slot = .pollToken)
    (hstep : stepSlot call before slot = some (after, event)) :
    Inv call (trace ++ event.toList) after := by
  simp only [stepSlot, hpc] at hstep
  split at hstep
  next hstop =>
    obtain ⟨rfl, rfl⟩ := by simpa using hstep
    exact hinv.beyondGate hslot hpc (by simp [Pc.level]) (by simp [Pc.level])
      (by simp [Pc.level]) trivial (fun _ => trivial) trivial (by simp)
      (by simp [History, hstop])
  next =>
    obtain ⟨rfl, rfl⟩ := by simpa using hstep
    have hseed := hinv.partial_at_gate hslot
      (by simp [level_of_pc hpc, Pc.level])
    exact hinv.beyondGate hslot hpc (by simp [Pc.level]) (by simp [Pc.level])
      (by simp [Pc.level]) trivial (fun _ => trivial) trivial
      (by simp [Event.passOf]) (by simp [History, hseed])

theorem repollToken_inv (hinv : Inv call trace before)
    (hslot : slot < call.participants) (hpc : before.pc slot = .repollToken)
    (hstep : stepSlot call before slot = some (after, event)) :
    Inv call (trace ++ event.toList) after := by
  simp only [stepSlot, hpc] at hstep
  split at hstep
  next hstop =>
    obtain ⟨rfl, rfl⟩ := by simpa using hstep
    exact hinv.beyondGate hslot hpc (by simp [Pc.level]) (by simp [Pc.level])
      (by simp [Pc.level]) trivial (fun _ => trivial) trivial (by simp)
      (by simp [History])
  next =>
    obtain ⟨rfl, rfl⟩ := by simpa using hstep
    refine hinv.beyondGate hslot hpc (by simp [Pc.level])
      (by simp [Pc.level]) (by simp [Pc.level]) trivial (fun _ => trivial)
      trivial (by simp) ?_
    intro events hevents
    simp only [History] at hevents
    simp [History, hevents]

theorem History.mono {stop stop' : Bool} {events : List (Event T)}
    (hstop : stop = true → stop' = true)
    (hpast : History call stop slot pc events) :
    History call stop' slot pc events := by
  cases pc with
  | repollToken => exact ⟨hpast.1, hstop hpast.2⟩
  | storeCancelled => exact ⟨hpast.1, hstop hpast.2⟩
  | stampPass2 => exact hpast.imp (And.imp_right hstop) id
  | left => exact hpast.imp (And.imp_right hstop) id
  | _ => exact hpast

/-- The flags and the outcome may change without any slot moving. -/
theorem Inv.retouch (hinv : Inv call trace before) (cancelled stop : Bool)
    (outcome : Option (Except Site T))
    (hstop : before.stopRequested = true → stop = true)
    (hcancelled : cancelled = true → stop = true)
    (houtcome : ∀ result, outcome = some result →
      before.allLeft call = true ∧ result = .ok before.inclusiveTotal) :
    Inv call trace { before with
      scanCancelled := cancelled
      stopRequested := stop
      outcome := outcome } where
  control := ⟨hinv.control.shape, hinv.control.seen, hinv.control.ordered⟩
  stamps := ⟨hinv.stamps.unstamped, hinv.stamps.stamped, hinv.stamps.cluster,
    hinv.stamps.published⟩
  partials := hinv.partials
  totals := ⟨hinv.totals.accumulated, hinv.totals.totals,
    hinv.totals.prefixes, hinv.totals.acc, hinv.totals.inclusive⟩
  history := fun slot hslot => (hinv.history slot hslot).mono hstop
  bounded := hinv.bounded
  cancelled := hcancelled
  calm := hinv.calm
  outcome := houtcome

theorem storeCancelled_inv (hinv : Inv call trace before)
    (hslot : slot < call.participants)
    (hpc : before.pc slot = .storeCancelled)
    (hstep : stepSlot call before slot = some (after, event)) :
    Inv call (trace ++ event.toList) after := by
  simp only [stepSlot, hpc, Option.some.injEq, Prod.mk.injEq] at hstep
  obtain ⟨rfl, rfl⟩ := hstep
  have hstop : before.stopRequested = true := by
    have hpast := hinv.history slot hslot
    rw [hpc] at hpast
    exact hpast.2
  have hmoved : Inv call (trace ++ (none : Option (Event T)).toList)
      (before.setPc slot .stampPass2) := by
    refine hinv.beyondGate hslot hpc (by simp [Pc.level])
      (by simp [Pc.level]) (by simp [Pc.level]) trivial (fun _ => trivial)
      trivial (by simp) ?_
    intro events hevents
    simp only [History] at hevents
    simp [History, hevents]
  exact hmoved.retouch true before.stopRequested before.outcome id
    (fun _ => hstop) hmoved.outcome

theorem pass2Body_inv (hinv : Inv call trace before)
    (hthrows : ∀ site, call.throws site = false)
    (hslot : slot < call.participants) (hpc : before.pc slot = .pass2Body)
    (hstep : stepSlot call before slot = some (after, event)) :
    Inv call (trace ++ event.toList) after := by
  simp only [stepSlot, hpc, hthrows, Bool.false_eq_true, if_false,
    Option.some.injEq, Prod.mk.injEq] at hstep
  obtain ⟨rfl, rfl⟩ := hstep
  refine hinv.beyondGate hslot hpc (by simp [Pc.level]) (by simp [Pc.level])
    (by simp [Pc.level]) trivial (fun _ => trivial) trivial
    (by simp [Event.passOf]) ?_
  intro events hevents
  simp only [History] at hevents
  simp [History, hevents]

theorem stampPass2_inv (hinv : Inv call trace before)
    (hslot : slot < call.participants) (hpc : before.pc slot = .stampPass2)
    (hstep : stepSlot call before slot = some (after, event)) :
    Inv call (trace ++ event.toList) after := by
  have hlevel : before.level slot = 16 := level_of_pc hpc
  simp only [stepSlot, hpc, Option.some.injEq, Prod.mk.injEq] at hstep
  obtain ⟨rfl, rfl⟩ := hstep
  have hclimbs : Climbs call before slot (Pc.left : Pc T).level :=
    .of_pc hpc (by simp [Pc.level]) (by simp [Crosses, Pc.level])
  apply hinv.move hslot (by simp [hpc, Pc.hasLeft]) rfl
  · exact hinv.control.move rfl hclimbs trivial trivial
  · refine hinv.stamps.move rfl ?_ (by simp [Pc.level]) ?_ ?_ ?_
    · intro other hother
      simp [State.setPc, State.stamp, hother]
    · simp [State.setPc, State.stamp]
    · exact hinv.stamps.cluster_quiet rfl rfl hclimbs.up
        (fun _ _ => by simp [Crosses, hlevel])
    · exact hinv.stamps.published_quiet rfl rfl hclimbs.up
        (fun _ => by simp [Crosses, hlevel])
  · refine hinv.partials.quiet rfl rfl (by simp [Crosses, hlevel]) ?_
    intro _ member _ _
    rw [hpc, expected_of_high (by simp [Pc.level]),
      expected_of_high (by simp [Pc.level])]
  · have hzero : 10 ≤ before.level 0 :=
      hinv.control.ordered.published slot hslot (by omega)
    constructor
    · exact hinv.totals.accumulated_move hinv.control rfl (.inr rfl) trivial
    · intro hhier leader hleader hleads hpast
      refine hinv.totals.totals hhier leader hleader hleads ?_
      by_cases hsame : leader = slot
      · rw [hsame]
        omega
      · simpa [State.level, State.setPc, State.stamp, hsame] using hpast
    · exact fun hhier _ => hinv.totals.prefixes hhier hzero
    · exact fun _ => hinv.totals.acc hzero
    · intro _ hwhy
      by_cases hstash : slot = 0 ∧ call.hierarchical = false
      · simpa [State.setPc, State.stamp, hstash] using
          hinv.totals.acc hzero
      · have hold : call.hierarchical = true ∨ 17 ≤ before.level 0 := by
          by_cases hfirst : slot = 0
          · exact .inl (by simpa [hfirst] using hstash)
          · refine hwhy.imp id fun hlast => ?_
            simpa [State.level, State.setPc, State.stamp, Ne.symm hfirst]
              using hlast
        simpa [State.setPc, State.stamp, hstash] using
          hinv.totals.inclusive hzero hold
  · simp
  · simp [hpc, History]
  · rfl
  · exact hinv.cancelled
  · rfl
  · rfl

end Slot

/-! ## Every step and every run -/

section Machine

variable {call : Call T} {trace : List (Event T)} {before after : State T}
variable {slot : ℕ} {event : Option (Event T)}

theorem stepSlot_inv (hinv : Inv call trace before)
    (hthrows : ∀ site, call.throws site = false) (hmonoid : call.IsMonoid)
    (hslot : slot < call.participants)
    (hstep : stepSlot call before slot = some (after, event)) :
    Inv call (trace ++ event.toList) after := by
  have hshape := hinv.control.shape slot hslot
  cases hpc : before.pc slot with
  | pass1Enter => exact pass1Enter_inv hinv hslot hpc hstep
  | pass1Body => exact pass1Body_inv hinv hthrows hslot hpc hstep
  | stampPass1 => exact stampPass1_inv hinv hslot hpc hstep
  | awaitPass1 member => exact awaitPass1_inv hinv hslot hpc hstep
  | loadFailed => exact loadFailed_inv hinv hslot hpc hstep
  | reduce member acc => exact reduce_inv hinv hthrows hslot hpc hstep
  | publishTotal localAcc => exact publishTotal_inv hinv hslot hpc hstep
  | awaitCluster cluster => exact awaitCluster_inv hinv hslot hpc hstep
  | crossReduce cluster globalAcc =>
      exact crossReduce_inv hinv hthrows hmonoid hslot hpc hstep
  | publishPrefixes acc => exact publishPrefixes_inv hinv hslot hpc hstep
  | awaitPrefixes => exact awaitPrefixes_inv hinv hslot hpc hstep
  | combine member cPrefix =>
      exact combine_inv hinv hthrows hmonoid hslot hpc hstep
  | stampCluster => exact stampCluster_inv hinv hslot hpc hstep
  | awaitCombined => exact awaitCombined_inv hinv hslot hpc hstep
  | loadCancelled => exact loadCancelled_inv hinv hslot hpc hstep
  | pollToken => exact pollToken_inv hinv hslot hpc hstep
  | repollToken => exact repollToken_inv hinv hslot hpc hstep
  | storeCancelled => exact storeCancelled_inv hinv hslot hpc hstep
  | pass2Body => exact pass2Body_inv hinv hthrows hslot hpc hstep
  | stampPass2 => exact stampPass2_inv hinv hslot hpc hstep
  | left => simp [stepSlot, hpc] at hstep
  | capture site next => simp [hpc, Shape] at hshape
  | arm next => simp [hpc, Shape] at hshape
  | stampFailed => simp [hpc, Shape] at hshape
  | publishFailed => simp [hpc, Shape] at hshape
  | awaitLeft other => simp [hpc, Shape] at hshape

theorem inv_step {action : Action} (hinv : Inv call trace before)
    (hthrows : ∀ site, call.throws site = false) (hmonoid : call.IsMonoid)
    (hstep : (scan call).step before action = some (after, event)) :
    Inv call (trace ++ event.toList) after := by
  cases action with
  | slot slot =>
      simp only [scan] at hstep
      split at hstep
      next hslot => exact stepSlot_inv hinv hthrows hmonoid hslot hstep
      next => simp at hstep
  | join =>
      simp only [scan] at hstep
      split at hstep
      next hready =>
        obtain ⟨rfl, rfl⟩ := by simpa using hstep
        have hjoined := hinv.retouch before.scanCancelled before.stopRequested
          (some (scanOutcome before)) id hinv.cancelled ?_
        · simpa using hjoined
        · intro result hresult
          obtain rfl := Option.some.inj hresult
          simp [scanOutcome, hinv.calm, hready.2]
      next => simp at hstep
  | requestStop =>
      obtain ⟨rfl, rfl⟩ := by simpa [scan] using hstep
      simpa using hinv.retouch before.scanCancelled true before.outcome
        (fun _ => rfl) (fun _ => rfl) hinv.outcome

theorem inv_start (call : Call T) (scratch : ℕ → T) (initialTotal : T) :
    Inv call [] (start call scratch initialTotal) := by
  have hlevel : ∀ slot, (start call scratch initialTotal).level slot = 0 :=
    fun _ => rfl
  constructor
  · refine ⟨fun _ _ => trivial, fun _ _ => trivial, ?_⟩
    constructor <;> simp [hlevel]
  · constructor
    · exact fun slot _ _ => call.epochs.done_le slot
    · simp [hlevel]
    · intro _ slot _ _
      rw [hlevel]
      rfl
    · rw [hlevel]
      simp [start]
  · simp [Partials, hlevel]
  · refine ⟨fun _ _ => trivial, ?_, ?_, ?_, ?_⟩ <;> simp [hlevel]
  · simp [start, History]
  · simp
  · simp [start]
  · rfl
  · simp [start]

/-- The invariant holds after every run in which nothing throws. -/
theorem inv_run {scratch : ℕ → T} {initialTotal : T} {state : State T}
    (hthrows : ∀ site, call.throws site = false) (hmonoid : call.IsMonoid)
    (run : Reaches (scan call) (start call scratch initialTotal) trace state) :
    Inv call trace state :=
  run.invariant (Inv call) (inv_start call scratch initialTotal)
    fun hinv _ hstep => inv_step hinv hthrows hmonoid hstep

end Machine

end Citor.Scan
