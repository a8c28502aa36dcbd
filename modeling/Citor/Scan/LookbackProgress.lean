import Citor.Scan.LookbackSteps

/-!
# No lookback walk is stuck

A walk waits for an earlier tile only.  Such a tile is held by a slot that can
move or waits itself for a still earlier one, or it is handed out to a slot of
its cluster; whether anything throws does not matter.
-/

namespace Citor.Lookback

variable {T : Type*}

section Progress

variable {job : Job T} {state : State T} {slot : ℕ}

/-- What keeps the walks of a tiled scan going. -/
structure Progressing (job : Job T) (state : State T) : Prop where
  held : ∀ slot < job.shape.participants, ∀ tile,
    (state.pc slot).tile = some tile →
      job.shape.Owns (job.shape.clusters.clusterIdOfSlot slot) tile ∧
        tile < state.clusterNextTile (job.shape.clusters.clusterIdOfSlot slot)
  drained : ∀ slot < job.shape.participants,
    (state.pc slot).hasLeft = true →
      job.shape.clusterLastTile (job.shape.clusters.clusterIdOfSlot slot) ≤
        state.clusterNextTile (job.shape.clusters.clusterIdOfSlot slot)
  waits : ∀ slot < job.shape.participants, ∀ tile cursor accum,
    state.pc slot = .walk tile cursor accum →
      state.flag tile ≠ .initialized ∧ 0 < cursor ∧ cursor ≤ tile
  released : ∀ tile, Claimed job state tile →
    (∀ slot < job.shape.participants, (state.pc slot).tile ≠ some tile) →
      state.flag tile ≠ .initialized

/-- A slot that cannot move has left or waits for an unpublished
predecessor. -/
theorem idle_cases (hidle : stepSlot job state slot = none) :
    state.pc slot = .left ∨ ∃ tile cursor accum,
      state.pc slot = .walk tile cursor accum ∧
        state.flag (cursor - 1) = .initialized := by
  cases hpc : state.pc slot with
  | left => exact .inl rfl
  | walk tile cursor accum =>
      refine .inr ⟨tile, cursor, accum, rfl, ?_⟩
      simp only [stepSlot, hpc] at hidle
      split at hidle
      · split at hidle <;> simp at hidle
      · split at hidle <;> simp at hidle
      next hflag => exact hflag
  | _ =>
      simp only [stepSlot, hpc] at hidle
      repeat' split at hidle
      all_goals simp at hidle

/-- In a stuck state every waiting slot has another one waiting at an earlier
tile: the unpublished predecessor is unclaimed, and the slots of its cluster
hold tiles in front of it. -/
theorem Progressing.exists_earlier (hprogress : Progressing job state)
    (hidle : ∀ slot < job.shape.participants,
      stepSlot job state slot = none)
    {tile cursor : ℕ} {accum : T} (hslot : slot < job.shape.participants)
    (hpc : state.pc slot = .walk tile cursor accum)
    (hflag : state.flag (cursor - 1) = .initialized) :
    ∃ other < job.shape.participants, ∃ earlier cursor' accum',
      earlier < tile ∧ state.pc other = .walk earlier cursor' accum' := by
  have hheld : (state.pc slot).tile = some tile := by rw [hpc]; rfl
  obtain ⟨-, hpos, hle⟩ := hprogress.waits slot hslot tile cursor accum hpc
  have hbound : cursor - 1 < job.shape.numTiles :=
    (show cursor - 1 < tile by omega).trans
      (hprogress.held slot hslot tile hheld).1.lt_numTiles
  -- nobody holds the predecessor, since its holder could move
  have hnobody : ∀ other < job.shape.participants,
      (state.pc other).tile ≠ some (cursor - 1) := by
    intro other hother hholds
    rcases idle_cases (hidle other hother) with
      hleft | ⟨held, cursor', accum', hwalk, -⟩
    · simp [hleft, Pc.tile] at hholds
    · obtain rfl : held = cursor - 1 := by simpa [hwalk, Pc.tile] using hholds
      exact (hprogress.waits other hother _ _ _ hwalk).1 hflag
  have hunclaimed : ¬ Claimed job state (cursor - 1) := by
    intro hclaimed
    exact hprogress.released _ hclaimed hnobody hflag
  obtain ⟨cluster, hcluster, howns⟩ := job.shape.exists_owner hbound
  obtain ⟨other, hother, hid⟩ := job.shape.clusters.occupied cluster hcluster
  have hnext : state.clusterNextTile cluster ≤ cursor - 1 := by
    by_contra hpast
    exact hunclaimed ⟨cluster, hcluster, howns, by omega⟩
  rcases idle_cases (hidle other hother) with
    hleft | ⟨earlier, cursor', accum', hwalk, -⟩
  · have hdrained := hprogress.drained other hother (by rw [hleft]; rfl)
    rw [hid] at hdrained
    exact absurd howns.2 (by omega)
  · obtain ⟨-, hless⟩ := hprogress.held other hother earlier
      (by rw [hwalk]; rfl)
    rw [hid] at hless
    exact ⟨other, hother, earlier, cursor', accum', by omega, hwalk⟩

/-- As long as a slot has not left, some slot can move. -/
theorem Progressing.exists_slot_step (hprogress : Progressing job state)
    (hrunning : state.allLeft job = false) :
    ∃ slot < job.shape.participants, ∃ after event,
      stepSlot job state slot = some (after, event) := by
  by_contra hstuck
  have hidle : ∀ slot < job.shape.participants,
      stepSlot job state slot = none := by
    intro slot hslot
    cases hstep : stepSlot job state slot with
    | none => rfl
    | some next => exact absurd ⟨slot, hslot, _, _, hstep⟩ hstuck
  -- descend from a waiting slot to ever earlier tiles
  have hnowalk : ∀ tile, ∀ slot < job.shape.participants, ∀ cursor accum,
      state.pc slot ≠ .walk tile cursor accum := by
    intro tile
    induction tile using Nat.strong_induction_on with
    | _ tile ih =>
        intro slot hslot cursor accum hpc
        have hflag : state.flag (cursor - 1) = .initialized := by
          rcases idle_cases (hidle slot hslot) with
            hleft | ⟨tile', cursor', accum', hwalk, hflag⟩
          · simp [hpc] at hleft
          · rw [hpc, Pc.walk.injEq] at hwalk
            rw [hwalk.2.1]
            exact hflag
        obtain ⟨other, hother, earlier, cursor', accum', hless, hwalk⟩ :=
          hprogress.exists_earlier hidle hslot hpc hflag
        exact ih earlier hless other hother cursor' accum' hwalk
  simp only [State.allLeft, List.all_eq_false, List.mem_range,
    Bool.not_eq_true] at hrunning
  obtain ⟨slot, hslot, hstays⟩ := hrunning
  rcases idle_cases (hidle slot hslot) with
    hleft | ⟨tile, cursor, accum, hwalk, -⟩
  · simp [hleft, Pc.hasLeft] at hstays
  · exact hnowalk tile slot hslot cursor accum hwalk

theorem Progressing.exists_step (hprogress : Progressing job state)
    (hrunning : state.outcome = none) :
    ∃ action after event, action ≠ .requestStop ∧
      (inclusiveScan job).step state action = some (after, event) := by
  cases hall : state.allLeft job with
  | true =>
      exact ⟨.join, _, _, by simp, if_pos ⟨by simp [hrunning], hall⟩⟩
  | false =>
      obtain ⟨slot, hslot, after, event, hstep⟩ :=
        hprogress.exists_slot_step hall
      exact ⟨.slot slot, after, event, by simp,
        by simp [inclusiveScan, hslot, hstep]⟩

end Progress

end Citor.Lookback
