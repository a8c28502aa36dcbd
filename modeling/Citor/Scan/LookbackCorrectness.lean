import Citor.Scan.LookbackProgress

/-!
# What an inclusive scan guarantees

Output, total, exactly-once tiles and completion of an `inclusiveScan` in which
nothing throws.  The lookback walk takes its tile index as a 32-bit integer,
so a tiled call is right exactly as long as that index is not truncated.
-/

namespace Citor.Lookback

open Citor.Interleaving
open Citor.IntervalFold
open Citor.DoneSlots

variable {T : Type*}

section Runs

variable {job : Job T} {trace : List Event} {state : State T} {slot : ℕ}

/-! ## Progress -/

theorem TiledInv.progressing (hinv : TiledInv job trace state) :
    Progressing job state where
  held := hinv.books.held
  drained := hinv.books.drained
  waits := by
    intro slot hslot tile cursor accum hpc
    obtain ⟨hpos, hpeer, -⟩ := hinv.at_peer hslot hpc
    have hok := hinv.values.slots slot hslot
    have hstart := walkStart_le tile
    rw [hpc] at hok
    exact ⟨by simp [hok.1], by omega, by omega⟩
  released := by
    intro tile hclaimed hnobody
    simp [(hinv.values.finished tile hclaimed hnobody).1]

theorem TiledInv.exists_step (hinv : TiledInv job trace state)
    (hrunning : state.outcome = none) :
    ∃ action after event, action ≠ .requestStop ∧
      (inclusiveScan job).step state action = some (after, event) :=
  hinv.progressing.exists_step hrunning

theorem SerialInv.exists_step (hinv : SerialInv job trace state)
    (hrunning : state.outcome = none) :
    ∃ action after event, action ≠ .requestStop ∧
      (inclusiveScan job).step state action = some (after, event) := by
  have hpcOk := hinv.pc
  have hzero := job.shape.participants_pos
  have hstep : ∃ after event, stepSlot job state 0 = some (after, event) := by
    cases hpc : state.pc 0 with
    | pollToken =>
        simp only [stepSlot, hpc]
        split <;> exact ⟨_, _, rfl⟩
    | serial index running =>
        simp only [stepSlot, hpc]
        repeat' split
        all_goals exact ⟨_, _, rfl⟩
    | left =>
        rw [hpc] at hpcOk
        obtain ⟨outcome, houtcome, -⟩ := hpcOk
        simp [hrunning] at houtcome
    | _ =>
        rw [hpc] at hpcOk
        exact hpcOk.elim
  obtain ⟨after, event, hstep⟩ := hstep
  exact ⟨.slot 0, after, event, by simp,
    by simp [inclusiveScan, hzero, hstep]⟩

/-! ## Completion -/

/-- The steps a slot needs for its tile at most, plus one for the claim after
it. -/
def Pc.remaining (job : Job T) : Pc T → ℕ
  | .pollToken => job.shape.n + 2
  | .serial index _ => (job.shape.n - index) + 1
  | .claim => 1
  | .loadFailed tile => 2 * job.shape.tileElems + tile + 10
  | .pass1 tile index _ =>
      job.shape.tileElems + tile + 9 + (job.shape.tileHi tile - index)
  | .publishAggregate tile _ => job.shape.tileElems + tile + 8
  | .walk _ cursor _ => job.shape.tileElems + cursor + 7
  | .stitch _ _ _ _ => job.shape.tileElems + 6
  | .publishPrefix _ _ => job.shape.tileElems + 5
  | .pass2 tile index _ => (job.shape.tileHi tile - index) + 4
  | .capture _ _ => 3
  | .giveUp _ => 2
  | .left => 0

/-- What a cluster's counter still has to hand out. -/
def State.unclaimed (job : Job T) (state : State T) (cluster : ℕ) : ℕ :=
  job.shape.clusterLastTile cluster - state.clusterNextTile cluster

/-- The most one claimed tile costs. -/
def Shape.tileCost (shape : Shape) : ℕ :=
  2 * shape.tileElems + shape.numTiles + 11

def State.remaining (job : Job T) (state : State T) : ℕ :=
  (if state.outcome.isNone then 1 else 0) +
    job.shape.tileCost *
      ∑ cluster ∈ Finset.range job.shape.clusters.numClusters,
        state.unclaimed job cluster +
    ∑ slot ∈ Finset.range job.shape.participants,
      (state.pc slot).remaining job

theorem stepSlot_frame {before after : State T} {event : Option Event}
    (hstep : stepSlot job before slot = some (after, event)) :
    (∀ other ≠ slot, after.pc other = before.pc other) ∧
      (before.outcome.isNone = false → after.outcome.isNone = false) := by
  cases hpc : before.pc slot <;> simp only [stepSlot, hpc] at hstep
  all_goals
    repeat' split at hstep
  all_goals
    first
      | (simp only [reduceCtorEq] at hstep)
      | (simp only [Option.some.injEq, Prod.mk.injEq] at hstep
         obtain ⟨rfl, rfl⟩ := hstep
         exact ⟨fun other hother => by
           simp [State.return, State.setPc, State.write, State.setFlag,
             State.setAggregate, State.setPrefix, hother], by
           simp [State.return, State.setPc, State.write, State.setFlag,
             State.setAggregate, State.setPrefix]⟩)

theorem remaining_afterFold_le (tile cursor : ℕ) (accum : T) :
    (afterFold tile cursor accum).remaining job ≤
      job.shape.tileElems + cursor + 7 := by
  unfold afterFold
  split <;> simp only [Pc.remaining] <;> omega

theorem remaining_afterFold_lt (tile cursor : ℕ) (accum : T) :
    (afterFold tile (cursor - 1) accum).remaining job <
      job.shape.tileElems + cursor + 7 := by
  unfold afterFold
  split <;> simp only [Pc.remaining] <;> omega

theorem Shape.tileHi_sub_le (shape : Shape) (tile : ℕ) :
    shape.tileHi tile - shape.tileLo tile ≤ shape.tileElems := by
  unfold Shape.tileHi
  split <;> omega

/-- A claim hands out a tile or ends the slot. -/
theorem claim_remaining {before after : State T} {event : Option Event}
    (hpc : before.pc slot = .claim)
    (hstep : stepSlot job before slot = some (after, event)) :
    (∀ cluster, after.unclaimed job cluster ≤ before.unclaimed job cluster) ∧
      ((after.pc slot).remaining job < (before.pc slot).remaining job ∨
        after.unclaimed job (job.shape.clusters.clusterIdOfSlot slot) <
            before.unclaimed job (job.shape.clusters.clusterIdOfSlot slot) ∧
          (after.pc slot).remaining job < job.shape.tileCost) := by
  have hle : ∀ (cluster : ℕ) (next : Pc T), ∀ other,
      ((before.fetchAdd cluster).setPc slot next).unclaimed job other ≤
        before.unclaimed job other := by
    intro cluster next other
    exact Nat.sub_le_sub_left (fetchAdd_le cluster other) _
  simp only [stepSlot, hpc] at hstep
  split at hstep
  next hmore =>
    obtain ⟨rfl, rfl⟩ := by simpa using hstep
    refine ⟨hle _ _, .inl ?_⟩
    simp [State.setPc, Pc.remaining, hpc]
  next hless =>
    obtain ⟨rfl, rfl⟩ := by simpa using hstep
    have hbound := job.shape.tileCursor_le
      (job.shape.clusters.clusterIdOfSlot slot + 1)
    unfold Shape.clusterLastTile at hless
    refine ⟨hle _ _, .inr ⟨?_, ?_⟩⟩
    · simp only [State.unclaimed, State.setPc, Function.update_self,
        Shape.clusterLastTile]
      omega
    · simp only [State.setPc, Function.update_self, Pc.remaining,
        Shape.tileCost]
      omega

/-- Any other step brings its slot closer to its next claim. -/
theorem work_remaining {before after : State T} {event : Option Event}
    (hclaim : before.pc slot ≠ .claim)
    (hstep : stepSlot job before slot = some (after, event)) :
    (∀ cluster, after.unclaimed job cluster ≤ before.unclaimed job cluster) ∧
      (after.pc slot).remaining job < (before.pc slot).remaining job := by
  cases hpc : before.pc slot with
  | claim => exact absurd hpc hclaim
  | loadFailed tile =>
      have hsize := job.shape.tileHi_sub_le tile
      simp only [stepSlot, hpc] at hstep
      split at hstep
      all_goals
        obtain ⟨rfl, rfl⟩ := by simpa using hstep
        refine ⟨fun _ => le_rfl, ?_⟩
        simp only [State.setPc, Function.update_self, Pc.remaining]
        omega
  | publishPrefix tile myPrefix =>
      have hsize := job.shape.tileHi_sub_le tile
      simp only [stepSlot, hpc] at hstep
      split at hstep
      all_goals
        obtain ⟨rfl, rfl⟩ := by simpa using hstep
        refine ⟨fun _ => le_rfl, ?_⟩
        simp only [State.setPc, Function.update_self, Pc.remaining]
        omega
  | publishAggregate tile localTotal =>
      simp only [stepSlot, hpc, Option.some.injEq, Prod.mk.injEq] at hstep
      obtain ⟨rfl, rfl⟩ := hstep
      refine ⟨fun _ => le_rfl, ?_⟩
      simp only [State.setPc, Function.update_self]
      split
      · simp only [Pc.remaining]
        omega
      · have hstart := walkStart_le tile
        apply (remaining_afterFold_le tile (walkStart tile) _).trans_lt
        simp only [Pc.remaining]
        omega
  | walk tile cursor accum =>
      simp only [stepSlot, hpc] at hstep
      repeat' split at hstep
      all_goals
        first
          | (simp only [reduceCtorEq] at hstep)
          | (obtain ⟨rfl, rfl⟩ := by simpa using hstep
             refine ⟨fun _ => le_rfl, ?_⟩
             simp only [State.setPc, Function.update_self]
             first
               | exact remaining_afterFold_lt tile cursor _
               | (simp only [Pc.remaining]; omega))
  | _ =>
      simp only [stepSlot, hpc] at hstep
      repeat' split at hstep
      all_goals
        first
          | (simp only [reduceCtorEq] at hstep)
          | (simp only [Option.some.injEq, Prod.mk.injEq] at hstep
             obtain ⟨rfl, rfl⟩ := hstep
             refine ⟨fun _ => le_rfl, ?_⟩
             simp only [State.return, State.setPc, State.write, State.setFlag,
               State.setPrefix, Function.update_self, Pc.remaining]
             omega)

theorem stepSlot_remaining {before after : State T} {event : Option Event}
    (hstep : stepSlot job before slot = some (after, event)) :
    (∀ cluster, after.unclaimed job cluster ≤ before.unclaimed job cluster) ∧
      ((after.pc slot).remaining job < (before.pc slot).remaining job ∨
        after.unclaimed job (job.shape.clusters.clusterIdOfSlot slot) <
            before.unclaimed job (job.shape.clusters.clusterIdOfSlot slot) ∧
          (after.pc slot).remaining job < job.shape.tileCost) := by
  cases hpc : before.pc slot with
  | claim => exact hpc ▸ claim_remaining hpc hstep
  | _ =>
      obtain ⟨hunclaimed, hless⟩ := work_remaining (by simp [hpc]) hstep
      exact ⟨hunclaimed, .inl (hpc ▸ hless)⟩

/-- Every step but a stop request leaves the call with less to do. -/
theorem remaining_lt {before after : State T} {action : Action}
    {event : Option Event} (haction : action ≠ .requestStop)
    (hstep : (inclusiveScan job).step before action = some (after, event)) :
    after.remaining job < before.remaining job := by
  cases action with
  | slot slot =>
      simp only [inclusiveScan] at hstep
      split at hstep
      next hslot =>
        obtain ⟨hothers, hended⟩ := stepSlot_frame hstep
        have houtcome : (if after.outcome.isNone then 1 else 0) ≤
            if before.outcome.isNone then 1 else 0 := by
          cases hbefore : before.outcome.isNone with
          | true => simp; split <;> omega
          | false => simp [hended hbefore]
        have hsplit : ∀ state : State T,
            ∑ other ∈ Finset.range job.shape.participants,
                (state.pc other).remaining job =
              (state.pc slot).remaining job +
                ∑ other ∈ (Finset.range job.shape.participants).erase slot,
                  (state.pc other).remaining job :=
          fun state => (Finset.add_sum_erase _ _
            (Finset.mem_range.mpr hslot)).symm
        have hrest : ∑ other ∈ (Finset.range job.shape.participants).erase slot,
              (after.pc other).remaining job =
            ∑ other ∈ (Finset.range job.shape.participants).erase slot,
              (before.pc other).remaining job := by
          apply Finset.sum_congr rfl
          intro other hother
          rw [hothers other (Finset.ne_of_mem_erase hother)]
        obtain ⟨hunclaimed, hless⟩ := stepSlot_remaining hstep
        unfold State.remaining
        rw [hsplit before, hsplit after, hrest]
        rcases hless with hwork | ⟨hclaim, hcost⟩
        · have hclusters := Nat.mul_le_mul_left job.shape.tileCost
            (Finset.sum_le_sum fun cluster
              (_ : cluster ∈ Finset.range job.shape.clusters.numClusters) =>
                hunclaimed cluster)
          omega
        · -- a tile handed out pays for the work on it
          have hclusters := Nat.mul_le_mul_left job.shape.tileCost
            (Nat.succ_le_of_lt (Finset.sum_lt_sum
              (fun cluster _ => hunclaimed cluster)
              ⟨_, Finset.mem_range.mpr
                (job.shape.clusters.id_lt slot hslot), hclaim⟩))
          rw [Nat.mul_succ] at hclusters
          omega
      next => simp at hstep
  | join =>
      simp only [inclusiveScan] at hstep
      split at hstep
      next hready =>
        obtain ⟨rfl, rfl⟩ := by simpa using hstep
        simp [State.remaining, hready.1, State.unclaimed]
      next => simp at hstep
  | requestStop => exact absurd rfl haction

end Runs

/-! ## The end of a call -/

theorem Shape.tiled_pos (shape : Shape) (hpath : shape.path = .tiled) :
    0 < shape.tileElems ∧ 0 < shape.numTiles := by
  unfold Shape.path at hpath
  split at hpath
  · simp at hpath
  next hn =>
    split at hpath
    · simp at hpath
    next helems =>
      refine ⟨Nat.pos_of_ne_zero helems, ?_⟩
      apply Nat.div_pos <;> omega

section Ending

variable {job : Job T} {trace : List Event} {state : State T}

theorem TiledInv.left_of_outcome (hinv : TiledInv job trace state)
    (hended : state.outcome ≠ none) {slot : ℕ}
    (hslot : slot < job.shape.participants) : state.pc slot = .left := by
  obtain ⟨outcome, houtcome⟩ := Option.ne_none_iff_exists'.mp hended
  have hall := (hinv.outcome outcome houtcome).1
  have hleft : (state.pc slot).hasLeft = true := by
    simp only [State.allLeft, List.all_eq_true, List.mem_range] at hall
    exact hall slot hslot
  cases hpc : state.pc slot <;> simp_all [Pc.hasLeft]

theorem TiledInv.nobody_holds (hinv : TiledInv job trace state)
    (hended : state.outcome ≠ none) (tile : ℕ) :
    ∀ slot < job.shape.participants, (state.pc slot).tile ≠ some tile := by
  intro slot hslot
  simp [hinv.left_of_outcome hended hslot, Pc.tile]

/-- When everybody has left, every counter is drained. -/
theorem TiledInv.all_claimed (hinv : TiledInv job trace state)
    (hended : state.outcome ≠ none) {tile : ℕ}
    (htile : tile < job.shape.numTiles) : Claimed job state tile := by
  obtain ⟨cluster, hcluster, howns⟩ := job.shape.exists_owner htile
  obtain ⟨slot, hslot, hid⟩ := job.shape.clusters.occupied cluster hcluster
  have hdrained := hinv.books.drained slot hslot
    (by rw [hinv.left_of_outcome hended hslot]; rfl)
  rw [hid] at hdrained
  exact ⟨cluster, hcluster, howns, howns.2.trans_le hdrained⟩

/-- The output of an ended tiled call, truncated walk and all. -/
theorem TiledInv.out_eq (hinv : TiledInv job trace state)
    (hended : state.outcome ≠ none) {tile index : ℕ}
    (htile : tile < job.shape.numTiles)
    (hindex : job.shape.InTile tile index) :
    state.out index = job.finalOf tile index :=
  (hinv.values.finished tile (hinv.all_claimed hended htile)
    (hinv.nobody_holds hended tile)).2 index hindex

theorem TiledInv.total_eq (hinv : TiledInv job trace state)
    (hpos : 0 < job.shape.numTiles) {outcome : Except Site T}
    (houtcome : state.outcome = some outcome)
    (hquiet : state.stopRequested = false) :
    outcome = .ok (job.prefixFn (job.prefixOf (job.shape.numTiles - 1))
      (job.aggregateOf (job.shape.numTiles - 1))) := by
  have hended : state.outcome ≠ none := by simp [houtcome]
  have hfinished := hinv.values.finished (job.shape.numTiles - 1)
    (hinv.all_claimed hended (by omega)) (hinv.nobody_holds hended _)
  rw [(hinv.outcome outcome houtcome).2 hquiet,
    hinv.values.prefixes _ hfinished.1,
    hinv.values.aggregates _ (by simp [hfinished.1])]

theorem TiledInv.history_cases (hinv : TiledInv job trace state) (tile : ℕ) :
    trace.filter (fun event => event.tile = some tile) = [] ∨
      tile < job.shape.numTiles ∧ ∃ slot < job.shape.participants,
        trace.filter (fun event => event.tile = some tile) =
            [.claimed slot tile] ∨
          trace.filter (fun event => event.tile = some tile) =
            [.claimed slot tile, .wrote slot tile] := by
  by_cases hclaimed : Claimed job state tile
  · obtain ⟨cluster, -, howns, -⟩ := id hclaimed
    refine .inr ⟨howns.lt_numTiles, ?_⟩
    by_cases hheld : ∃ slot < job.shape.participants,
        (state.pc slot).tile = some tile
    · obtain ⟨slot, hslot, hholds⟩ := hheld
      exact ⟨slot, hslot, .inl (hinv.books.working slot hslot tile hholds)⟩
    · obtain ⟨slot, hslot, hevents⟩ := hinv.books.finished tile hclaimed
        fun slot hslot hholds => hheld ⟨slot, hslot, hholds⟩
      exact ⟨slot, hslot, .inr hevents⟩
  · exact .inl (hinv.books.fresh tile hclaimed)

theorem TiledInv.completes (hinv : TiledInv job trace state)
    (hthrows : ∀ site, job.throws site = false) (hmonoid : job.IsMonoid) :
    ∃ rest final, Run (inclusiveScan job)
      (fun _ action => action ≠ .requestStop) state rest final ∧
        final.outcome ≠ none := by
  refine exists_completion (State.remaining job)
    (fun state => ∃ trace, TiledInv job trace state) ?_ ?_ ?_ ⟨trace, hinv⟩
  · rintro state ⟨trace, hinv⟩ hrunning
    exact hinv.exists_step (by simpa using hrunning)
  · rintro state action after event ⟨trace, hinv⟩ _ hstep
    exact ⟨_, tiledInv_step hinv hthrows hmonoid hstep⟩
  · rintro state action after event _ haction hstep
    exact remaining_lt haction hstep

theorem SerialInv.completes (hinv : SerialInv job trace state)
    (hthrows : ∀ site, job.throws site = false) :
    ∃ rest final, Run (inclusiveScan job)
      (fun _ action => action ≠ .requestStop) state rest final ∧
        final.outcome ≠ none := by
  refine exists_completion (State.remaining job)
    (fun state => ∃ trace, SerialInv job trace state) ?_ ?_ ?_ ⟨trace, hinv⟩
  · rintro state ⟨trace, hinv⟩ hrunning
    exact hinv.exists_step (by simpa using hrunning)
  · rintro state action after event ⟨trace, hinv⟩ _ hstep
    exact ⟨_, serialInv_step hinv hthrows hstep⟩
  · rintro state action after event _ haction hstep
    exact remaining_lt haction hstep

/-- With few enough tiles the walk index is not truncated. -/
theorem finalOf_eq (hmonoid : job.IsMonoid)
    (hfits : job.shape.numTiles ≤ 2 ^ 32) {tile index : ℕ}
    (htile : tile < job.shape.numTiles)
    (hindex : job.shape.InTile tile index) :
    job.finalOf tile index = job.fold 0 (index + 1) := by
  have hstart : walkStart tile = tile :=
    Nat.mod_eq_of_lt (htile.trans_le hfits)
  unfold Job.finalOf Job.prefixOf
  rw [hstart]
  exact intervalFold_append hmonoid (Nat.zero_le _)
    (hindex.1.trans (Nat.le_succ index))

theorem total_eq_fold (hmonoid : job.IsMonoid)
    (hfits : job.shape.numTiles ≤ 2 ^ 32) (hpos : 0 < job.shape.numTiles) :
    job.prefixFn (job.prefixOf (job.shape.numTiles - 1))
        (job.aggregateOf (job.shape.numTiles - 1)) =
      job.fold 0 job.shape.n := by
  have hlast : job.shape.numTiles - 1 < job.shape.numTiles := by omega
  have hstart : walkStart (job.shape.numTiles - 1) =
      job.shape.numTiles - 1 :=
    Nat.mod_eq_of_lt (hlast.trans_le hfits)
  unfold Job.prefixOf Job.aggregateOf
  rw [hstart, job.shape.tileHi_last hpos]
  exact intervalFold_append hmonoid (Nat.zero_le _) (job.shape.tileLo_lt hlast).le

end Ending

/-! ## What a caller sees -/

/-- One run of an inclusive scan: output, total, tiles and the way to the
end. -/
structure LookbackCorrect (job : Job T) (trace : List Event)
    (state : State T) : Prop where
  out : state.outcome ≠ none → state.stopRequested = false →
    ∀ index < job.shape.n, state.out index = job.fold 0 (index + 1)
  total : ∀ outcome, state.outcome = some outcome →
    state.stopRequested = false → outcome = .ok (job.fold 0 job.shape.n)
  /-- A tile is claimed and written at most once, by one slot. -/
  atMostOnce : ∀ tile,
    trace.filter (fun event => event.tile = some tile) = [] ∨
      tile < job.shape.numTiles ∧ ∃ slot < job.shape.participants,
        trace.filter (fun event => event.tile = some tile) <+:
          [.claimed slot tile, .wrote slot tile]
  once : job.shape.path = .tiled → state.outcome ≠ none →
    ∀ tile < job.shape.numTiles, ∃ slot < job.shape.participants,
      trace.filter (fun event => event.tile = some tile) =
        [.claimed slot tile, .wrote slot tile]
  enabled : state.outcome = none → ∃ action after event,
    action ≠ .requestStop ∧
      (inclusiveScan job).step state action = some (after, event)
  shorter : ∀ action after event, action ≠ .requestStop →
    (inclusiveScan job).step state action = some (after, event) →
      after.remaining job < state.remaining job
  completes : ∃ rest final, Run (inclusiveScan job)
    (fun _ action => action ≠ .requestStop) state rest final ∧
      final.outcome ≠ none

section Caller

variable {job : Job T} {trace : List Event} {state : State T}

theorem TiledInv.correct (hinv : TiledInv job trace state)
    (hthrows : ∀ site, job.throws site = false) (hmonoid : job.IsMonoid)
    (hpath : job.shape.path = .tiled)
    (hfits : job.shape.numTiles ≤ 2 ^ 32) :
    LookbackCorrect job trace state where
  out := by
    intro hended _ index hindex
    obtain ⟨tile, htile, hin⟩ :=
      job.shape.exists_inTile (job.shape.tiled_pos hpath).1 hindex
    rw [hinv.out_eq hended htile hin, finalOf_eq hmonoid hfits htile hin]
  total := by
    intro outcome houtcome hquiet
    have hpos := (job.shape.tiled_pos hpath).2
    rw [hinv.total_eq hpos houtcome hquiet, total_eq_fold hmonoid hfits hpos]
  atMostOnce := by
    intro tile
    refine (hinv.history_cases tile).imp id fun hheld => ?_
    obtain ⟨htile, slot, hslot, hevents⟩ := hheld
    refine ⟨htile, slot, hslot, ?_⟩
    rcases hevents with hevents | hevents
    · exact hevents ▸ ⟨[.wrote slot tile], rfl⟩
    · exact hevents ▸ List.prefix_rfl
  once := by
    intro _ hended tile htile
    exact hinv.books.finished tile (hinv.all_claimed hended htile)
      (hinv.nobody_holds hended tile)
  enabled := hinv.exists_step
  shorter _ _ _ haction hstep := remaining_lt haction hstep
  completes := hinv.completes hthrows hmonoid

theorem SerialInv.correct (hinv : SerialInv job trace state)
    (hthrows : ∀ site, job.throws site = false)
    (hpath : job.shape.path ≠ .tiled) : LookbackCorrect job trace state := by
  have hpcOk := hinv.pc
  have hended : ∀ outcome, state.outcome = some outcome →
      state.stopRequested = false →
        outcome = .ok (job.fold 0 job.shape.n) ∧
          ∀ index < job.shape.n, state.out index = job.fold 0 (index + 1) := by
    intro outcome houtcome hquiet
    cases hpc : state.pc 0 <;> rw [hpc] at hpcOk
    case left =>
      obtain ⟨returned, hreturned, hvalue⟩ := hpcOk
      obtain rfl : returned = outcome := by
        simpa [houtcome] using hreturned.symm
      exact hvalue hquiet
    case pollToken => simp [hpcOk.1] at houtcome
    case serial => simp [hpcOk.1] at houtcome
    all_goals exact hpcOk.elim
  constructor
  · intro hsome hquiet
    obtain ⟨outcome, houtcome⟩ := Option.ne_none_iff_exists'.mp hsome
    exact (hended outcome houtcome hquiet).2
  · exact fun outcome houtcome hquiet => (hended outcome houtcome hquiet).1
  · intro tile
    simp [hinv.calm]
  · exact fun htiled => absurd htiled hpath
  · exact hinv.exists_step
  · exact fun _ _ _ haction hstep => remaining_lt haction hstep
  · exact hinv.completes hthrows

theorem lookbackCorrect_of_fits (hthrows : ∀ site, job.throws site = false)
    (hmonoid : job.IsMonoid)
    (hfits : job.shape.path = .tiled → job.shape.numTiles ≤ 2 ^ 32)
    {scratch : ℕ → T}
    (run : Reaches (inclusiveScan job) (start job scratch) trace state) :
    LookbackCorrect job trace state := by
  by_cases hpath : job.shape.path = .tiled
  · exact (tiledInv_run hthrows hmonoid hpath run).correct hthrows hmonoid
      hpath (hfits hpath)
  · exact (serialInv_run hthrows hpath run).correct hthrows hpath

end Caller

/-! ## The truncated walk -/

theorem step_stopRequested {job : Job T} {before after : State T}
    {action : Action} {event : Option Event} (haction : action ≠ .requestStop)
    (hstep : (inclusiveScan job).step before action = some (after, event)) :
    after.stopRequested = before.stopRequested := by
  cases action with
  | slot slot =>
      simp only [inclusiveScan] at hstep
      split at hstep
      next =>
        cases hpc : before.pc slot <;> simp only [stepSlot, hpc] at hstep
        all_goals
          repeat' split at hstep
        all_goals
          first
            | (simp only [reduceCtorEq] at hstep)
            | (simp only [Option.some.injEq, Prod.mk.injEq] at hstep
               obtain ⟨rfl, rfl⟩ := hstep
               rfl)
      next => simp at hstep
  | join =>
      simp only [inclusiveScan] at hstep
      split at hstep
      · obtain ⟨rfl, rfl⟩ := by simpa using hstep
        rfl
      · simp at hstep
  | requestStop => exact absurd rfl haction

/-- A call over the free monoid: every element is its own index. -/
def listJob (shape : Shape) : Job (List ℕ) where
  shape := shape
  identity := []
  prefixFn := fun left right => left ++ right
  input := fun index => [index]
  blank := []
  throws := fun _ => false

theorem listJob_isMonoid (shape : Shape) : (listJob shape).IsMonoid :=
  ⟨List.append_assoc, List.nil_append, List.append_nil⟩

/-- Tile `2 ^ 32` starts its walk at tile 0 and takes the identity for its
prefix. -/
theorem listJob_finalOf (shape : Shape) :
    (listJob shape).finalOf (2 ^ 32) (shape.tileLo (2 ^ 32)) =
      [shape.tileLo (2 ^ 32)] := by
  have hstart : walkStart (2 ^ 32) = 0 := Nat.mod_self _
  unfold Job.finalOf Job.prefixOf
  rw [hstart]
  simp [Job.fold, listJob, Shape.tileLo, intervalFold]

theorem listJob_fold_ne (shape : Shape) {index : ℕ} (hpos : 0 < index) :
    (listJob shape).fold 0 (index + 1) ≠ [index] := by
  obtain ⟨before, rfl⟩ := Nat.exists_eq_succ_of_ne_zero hpos.ne'
  have hfold : (listJob shape).fold 0 (before + 1 + 1) =
      ((listJob shape).fold 0 before ++ [before]) ++ [before + 1] := by
    unfold Job.fold
    rw [intervalFold_succ (Nat.zero_le _), intervalFold_succ (Nat.zero_le _)]
    rfl
  intro heq
  rw [Nat.succ_eq_add_one, hfold] at heq
  have hlength := congrArg List.length heq
  simp at hlength

/-- Beyond `2 ^ 32` tiles every schedule can be continued to a wrong output. -/
theorem exists_truncated (shape : Shape) (hpath : shape.path = .tiled)
    (hmany : 2 ^ 32 < shape.numTiles) (scratch : ℕ → List ℕ) :
    ∃ trace state, Reaches (inclusiveScan (listJob shape))
        (start (listJob shape) scratch) trace state ∧
      state.outcome ≠ none ∧ state.stopRequested = false ∧
      shape.tileLo (2 ^ 32) < shape.n ∧
      state.out (shape.tileLo (2 ^ 32)) ≠
        (listJob shape).fold 0 (shape.tileLo (2 ^ 32) + 1) := by
  have hmonoid := listJob_isMonoid shape
  have hthrows : ∀ site, (listJob shape).throws site = false := fun _ => rfl
  obtain ⟨trace, state, run, hended⟩ :=
    (tiledInv_start (listJob shape) hpath scratch).completes hthrows hmonoid
  have hquiet : state.stopRequested = false := by
    refine run.invariant (fun _ state => state.stopRequested = false) rfl ?_
    intro trace before action after event hbefore haction hstep
    exact (step_stopRequested haction hstep).trans hbefore
  have hinv := tiledInv_run hthrows hmonoid hpath run.unrestricted
  have hlo := shape.tileLo_lt hmany
  refine ⟨trace, state, run.unrestricted, hended, hquiet, hlo, ?_⟩
  have hvalue : state.out (shape.tileLo (2 ^ 32)) =
      [shape.tileLo (2 ^ 32)] :=
    (hinv.out_eq hended hmany ⟨le_rfl, shape.tileLo_lt_tileHi hmany⟩).trans
      (listJob_finalOf shape)
  rw [hvalue]
  refine (listJob_fold_ne shape ?_).symm
  exact Nat.mul_pos (by positivity) (shape.tiled_pos hpath).1

/-- For every length, tile size, participant count, cluster layout and choice
of buffers: an inclusive scan is right for every monoid, every input and every
interleaving exactly if the call is not tiled or has at most `2 ^ 32` tiles. -/
theorem lookbackCorrect_iff (shape : Shape) :
    (∀ (T : Type) (job : Job T), job.shape = shape → job.IsMonoid →
        (∀ site, job.throws site = false) → ∀ scratch trace state,
          Reaches (inclusiveScan job) (start job scratch) trace state →
            LookbackCorrect job trace state) ↔
      (shape.path = .tiled → shape.numTiles ≤ 2 ^ 32) := by
  constructor
  · intro hcorrect hpath
    by_contra hmany
    obtain ⟨trace, state, run, hended, hquiet, hlo, hwrong⟩ :=
      exists_truncated shape hpath (by omega) (fun _ => [])
    have hright := hcorrect (List ℕ) (listJob shape) rfl
      (listJob_isMonoid shape) (fun _ => rfl) _ trace state run
    exact hwrong (hright.out hended hquiet _ hlo)
  · rintro hfits T job rfl hmonoid hthrows scratch trace state run
    exact lookbackCorrect_of_fits hthrows hmonoid hfits run

/-- `2 ^ 32 + 1` elements of 64 KiB on two participants with 64 KiB of L2. -/
def truncatedShape : Shape where
  n := 2 ^ 32 + 1
  tileElems := tileElemsFor (2 ^ 32 + 1) 65536 64 2
  participants := 2
  participants_pos := by decide
  clusters := .single (by decide)
  crossArena := false
  inPlace := false

theorem truncatedShape_not_correct :
    ∃ trace state, Reaches (inclusiveScan (listJob truncatedShape))
        (start (listJob truncatedShape) fun _ => []) trace state ∧
      state.outcome ≠ none ∧ state.stopRequested = false ∧
      state.out (2 ^ 32) ≠
        (listJob truncatedShape).fold 0 (2 ^ 32 + 1) ∧
      ¬ LookbackCorrect (listJob truncatedShape) trace state := by
  have helems : truncatedShape.tileElems = 1 := by
    norm_num [truncatedShape, tileElemsFor]
  have hn : truncatedShape.n = 2 ^ 32 + 1 := rfl
  have htiles : truncatedShape.numTiles = 2 ^ 32 + 1 := by
    simp [Shape.numTiles, helems, hn]
  have hpath : truncatedShape.path = .tiled := by
    have hparticipants : truncatedShape.participants = 2 := rfl
    have harena : truncatedShape.crossArena = false := rfl
    simp [Shape.path, hn, htiles, helems, hparticipants, harena]
  have hlo : truncatedShape.tileLo (2 ^ 32) = 2 ^ 32 := by
    simp [Shape.tileLo, helems]
  obtain ⟨trace, state, run, hended, hquiet, hless, hwrong⟩ :=
    exists_truncated truncatedShape hpath (by rw [htiles]; omega) (fun _ => [])
  rw [hlo] at hless hwrong
  exact ⟨trace, state, run, hended, hquiet, hwrong,
    fun hright => hwrong (hright.out hended hquiet _ hless)⟩

end Citor.Lookback
