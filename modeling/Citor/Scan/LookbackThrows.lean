import Citor.Scan.LookbackCorrectness

/-!
# An inclusive scan whose combiner throws

A tile that fails in any pass is given up: its flag is raised all the same, so
nobody waits for it.  The invariant follows the flag of every tile and the
throws of the trace; the values play no part.
-/

namespace Citor.Lookback

open Citor.Interleaving
open Citor.DoneSlots

variable {T : Type*}

def Flag.rank : Flag → ℕ
  | .initialized => 0
  | .aggregateAvailable => 1
  | .prefixAvailable => 2

section Invariant

variable (job : Job T)

/-- A call of the combiner in Pass 2 of the tile has thrown. -/
def Pass2Threw (trace : List Event) (tile : ℕ) : Prop :=
  ∃ index, job.shape.InTile tile index ∧ .threw (.pass2 index) ∈ trace

/-- What a program counter says about the flag of its tile. -/
def Stands (trace : List Event) (state : State T) : Pc T → Prop
  | .loadFailed tile | .pass1 tile _ _ | .publishAggregate tile _ =>
      state.flag tile = .initialized
  | .walk tile cursor _ =>
      state.flag tile = .aggregateAvailable ∧ 0 < cursor ∧ cursor ≤ tile
  | .stitch tile _ _ _ | .publishPrefix tile _ =>
      state.flag tile = .aggregateAvailable
  | .pass2 tile index _ =>
      state.flag tile = .prefixAvailable ∧ job.shape.tileLo tile ≤ index
  | .capture site tile =>
      .threw site ∈ trace ∧
        (state.flag tile = .prefixAvailable ↔ ∃ index, site = .pass2 index) ∧
        ∀ index, site = .pass2 index → job.shape.InTile tile index
  | .giveUp tile =>
      state.flag tile = .prefixAvailable → Pass2Threw job trace tile
  | .claim | .left => True
  | .pollToken | .serial _ _ => False

/-- What the outcome says about the captured exception. -/
def Ends (firstException : Option Site) (outcome : Except Site T) : Prop :=
  match firstException with
  | some site => outcome = .error site
  | none => ∀ site, outcome = .error site →
      site = .total ∧ job.throws .total = true

/-- The invariant of a tiled scan, throws or not. -/
structure ThrowInv (trace : List Event) (state : State T) : Prop where
  held : ∀ slot < job.shape.participants, ∀ tile,
    (state.pc slot).tile = some tile →
      job.shape.Owns (job.shape.clusters.clusterIdOfSlot slot) tile ∧
        tile < state.clusterNextTile (job.shape.clusters.clusterIdOfSlot slot)
  unique : ∀ slot < job.shape.participants,
    ∀ other < job.shape.participants, ∀ tile,
      (state.pc slot).tile = some tile → (state.pc other).tile = some tile →
        slot = other
  started : ∀ cluster, job.shape.clusterFirstTile cluster ≤
    state.clusterNextTile cluster
  drained : ∀ slot < job.shape.participants,
    (state.pc slot).hasLeft = true →
      job.shape.clusterLastTile (job.shape.clusters.clusterIdOfSlot slot) ≤
        state.clusterNextTile (job.shape.clusters.clusterIdOfSlot slot)
  slots : ∀ slot < job.shape.participants,
    Stands job trace state (state.pc slot)
  fresh : ∀ tile, ¬ Claimed job state tile → state.flag tile = .initialized
  released : ∀ tile, Claimed job state tile →
    (∀ slot < job.shape.participants, (state.pc slot).tile ≠ some tile) →
      state.flag tile = .prefixAvailable
  thrown : ∀ site, state.firstException = some site → .threw site ∈ trace
  captured : ∀ site, .threw site ∈ trace →
    state.firstException ≠ none ∨ ∃ slot < job.shape.participants,
      ∃ other tile, state.pc slot = .capture other tile
  outcome : ∀ outcome, state.outcome = some outcome →
    state.allLeft job = true ∧ Ends job state.firstException outcome

end Invariant

section Frames

variable {job : Job T} {trace : List Event} {before after : State T}
variable {slot tile : ℕ} {event : Option Event}

theorem Pass2Threw.append (hthrew : Pass2Threw job trace tile)
    (events : List Event) : Pass2Threw job (trace ++ events) tile := by
  obtain ⟨index, hin, hmem⟩ := hthrew
  exact ⟨index, hin, List.mem_append_left _ hmem⟩

/-- A program counter looks at the flag of its own tile only. -/
theorem Stands.frame {pc : Pc T} (hstands : Stands job trace before pc)
    (hflag : ∀ held, pc.tile = some held →
      after.flag held = before.flag held) (events : List Event) :
    Stands job (trace ++ events) after pc := by
  cases pc with
  | capture site held =>
      obtain ⟨hthrew, hpublished, hin⟩ := hstands
      refine ⟨List.mem_append_left _ hthrew, ?_, hin⟩
      rw [hflag held rfl]
      exact hpublished
  | giveUp held =>
      intro hpublished
      rw [hflag held rfl] at hpublished
      exact (hstands hpublished).append events
  | pollToken => exact hstands
  | serial => exact hstands
  | claim => trivial
  | left => trivial
  | _ => simpa only [Stands, hflag _ rfl] using hstands

/-- A step of a slot on the tile it holds. -/
structure Works (job : Job T) (trace : List Event) (before after : State T)
    (slot tile : ℕ) (event : Option Event) : Prop where
  others : ∀ other ≠ slot, after.pc other = before.pc other
  next : after.clusterNextTile = before.clusterNextTile
  flags : ∀ other ≠ tile, after.flag other = before.flag other
  rises : (before.flag tile).rank ≤ (after.flag tile).rank
  outcome : after.outcome = before.outcome
  stands : Stands job (trace ++ event.toList) after (after.pc slot)
  keeps : (after.pc slot).tile = some tile ∨
    after.pc slot = .claim ∧ after.flag tile = .prefixAvailable
  thrown : ∀ site, after.firstException = some site →
    before.firstException = some site ∨ .threw site ∈ trace
  stays : before.firstException ≠ none → after.firstException ≠ none
  captures : ∀ site, before.pc slot = .capture site tile →
    after.firstException ≠ none
  throws : ∀ site, event = some (.threw site) →
    after.pc slot = .capture site tile

/-- What the steps on a tile have in common; `flag` is the new flag of the
tile. -/
theorem Works.of_setPc {middle : State T} {pc : Pc T} {flag : Flag}
    (hpc : middle.pc = before.pc)
    (hnext : middle.clusterNextTile = before.clusterNextTile)
    (hflag : middle.flag = Function.update before.flag tile flag)
    (houtcome : middle.outcome = before.outcome)
    (hexception : middle.firstException = before.firstException)
    (hcalm : ∀ site, before.pc slot ≠ .capture site tile)
    (hrises : (before.flag tile).rank ≤ flag.rank)
    (hstands : Stands job (trace ++ event.toList) middle pc)
    (hkeeps : pc.tile = some tile ∨ pc = .claim ∧ flag = .prefixAvailable)
    (hthrows : ∀ site, event = some (.threw site) →
      pc = .capture site tile) :
    Works job trace before (middle.setPc slot pc) slot tile event where
  others := by
    intro other hother
    simp [State.setPc, hother, hpc]
  next := hnext
  flags := by
    intro other hother
    simp [State.setPc, hflag, hother]
  rises := by
    simpa [State.setPc, hflag] using hrises
  outcome := houtcome
  stands := by
    have hself : (middle.setPc slot pc).pc slot = pc := by simp [State.setPc]
    have hframe : Stands job (trace ++ event.toList ++ [])
        (middle.setPc slot pc) pc := hstands.frame (fun _ _ => rfl) []
    rwa [hself, ← List.append_nil (trace ++ event.toList)]
  keeps := by
    simpa [State.setPc, hflag] using hkeeps
  thrown := by
    intro site hsite
    exact .inl (hexception ▸ hsite)
  stays := by
    intro hsome
    change middle.firstException ≠ none
    rwa [hexception]
  captures := fun site hcapture => absurd hcapture (hcalm site)
  throws := by
    intro site hevent
    simpa [State.setPc] using hthrows site hevent

theorem update_flag_self (state : State T) (tile : ℕ) :
    state.flag = Function.update state.flag tile (state.flag tile) :=
  (Function.update_eq_self tile state.flag).symm

theorem loadFailed_works (hpc : before.pc slot = .loadFailed tile)
    (hstands : Stands job trace before (before.pc slot))
    (hstep : stepSlot job before slot = some (after, event)) :
    Works job trace before after slot tile event := by
  rw [hpc] at hstands
  change before.flag tile = .initialized at hstands
  simp only [stepSlot, hpc] at hstep
  split at hstep
  · obtain ⟨rfl, rfl⟩ := by simpa using hstep
    refine .of_setPc rfl rfl (update_flag_self before tile) rfl rfl
      (by simp [hpc]) le_rfl ?_ (.inl rfl) (by simp)
    intro hpublished
    simp [hstands] at hpublished
  · obtain ⟨rfl, rfl⟩ := by simpa using hstep
    exact .of_setPc rfl rfl (update_flag_self before tile) rfl rfl
      (by simp [hpc]) le_rfl hstands (.inl rfl) (by simp)

theorem pass1_works {index : ℕ} {localTotal : T}
    (hpc : before.pc slot = .pass1 tile index localTotal)
    (hstands : Stands job trace before (before.pc slot))
    (hstep : stepSlot job before slot = some (after, event)) :
    Works job trace before after slot tile event := by
  rw [hpc] at hstands
  change before.flag tile = .initialized at hstands
  simp only [stepSlot, hpc] at hstep
  split at hstep
  · split at hstep
    · obtain ⟨rfl, rfl⟩ := by simpa using hstep
      refine .of_setPc rfl rfl (update_flag_self before tile) rfl rfl
        (by simp [hpc]) le_rfl ⟨by simp, by simp [hstands], by simp⟩ (.inl rfl)
        (by simp)
    · obtain ⟨rfl, rfl⟩ := by simpa using hstep
      exact .of_setPc rfl rfl (update_flag_self before tile) rfl rfl
        (by simp [hpc]) le_rfl hstands (.inl rfl) (by simp)
  · obtain ⟨rfl, rfl⟩ := by simpa using hstep
    exact .of_setPc rfl rfl (update_flag_self before tile) rfl rfl
      (by simp [hpc]) le_rfl hstands (.inl rfl) (by simp)

theorem stands_afterFold {state : State T} {cursor : ℕ} {accum : T}
    (hflag : state.flag tile = .aggregateAvailable) (hle : cursor ≤ tile) :
    Stands job trace state (afterFold tile cursor accum) := by
  unfold afterFold
  split
  next => exact hflag
  next hpos => exact ⟨hflag, Nat.pos_of_ne_zero hpos, hle⟩

theorem publishAggregate_works {localTotal : T}
    (hpc : before.pc slot = .publishAggregate tile localTotal)
    (hstands : Stands job trace before (before.pc slot))
    (hstep : stepSlot job before slot = some (after, event)) :
    Works job trace before after slot tile event := by
  rw [hpc] at hstands
  change before.flag tile = .initialized at hstands
  simp only [stepSlot, hpc, Option.some.injEq, Prod.mk.injEq] at hstep
  obtain ⟨rfl, rfl⟩ := hstep
  have hraised : ((before.setAggregate tile localTotal).setFlag tile
      .aggregateAvailable).flag tile = .aggregateAvailable := by
    simp [State.setFlag]
  refine .of_setPc rfl rfl rfl rfl rfl (by simp [hpc])
    (by simp [hstands, Flag.rank]) ?_ (.inl ?_) (by simp)
  · split
    · exact hraised
    · exact stands_afterFold hraised (walkStart_le tile)
  · split
    · rfl
    · exact tile_afterFold

theorem walk_works {cursor : ℕ} {accum : T}
    (hpc : before.pc slot = .walk tile cursor accum)
    (hstands : Stands job trace before (before.pc slot))
    (hstep : stepSlot job before slot = some (after, event)) :
    Works job trace before after slot tile event := by
  rw [hpc] at hstands
  obtain ⟨hflag, hpos, hle⟩ := hstands
  have hcapture : ∀ site, (∀ index, site ≠ .pass2 index) →
      Works job trace before (before.setPc slot (.capture site tile)) slot tile
        (some (.threw site)) := by
    intro site hsite
    exact .of_setPc rfl rfl (update_flag_self before tile) rfl rfl
      (by simp [hpc]) le_rfl ⟨by simp, by simp [hflag, hsite],
        fun index heq => absurd heq (hsite index)⟩ (.inl rfl) (by simp)
  simp only [stepSlot, hpc] at hstep
  split at hstep
  · split at hstep
    · obtain ⟨rfl, rfl⟩ := by simpa using hstep
      exact hcapture _ (by simp)
    · obtain ⟨rfl, rfl⟩ := by simpa using hstep
      exact .of_setPc rfl rfl (update_flag_self before tile) rfl rfl
        (by simp [hpc]) le_rfl hflag (.inl rfl) (by simp)
  · split at hstep
    · obtain ⟨rfl, rfl⟩ := by simpa using hstep
      exact hcapture _ (by simp)
    · obtain ⟨rfl, rfl⟩ := by simpa using hstep
      exact .of_setPc rfl rfl (update_flag_self before tile) rfl rfl
        (by simp [hpc]) le_rfl (stands_afterFold hflag (by omega))
        (.inl tile_afterFold) (by simp)
  · simp at hstep

theorem stitch_works {peer : ℕ} {leftCombined accum : T}
    (hpc : before.pc slot = .stitch tile peer leftCombined accum)
    (hstands : Stands job trace before (before.pc slot))
    (hstep : stepSlot job before slot = some (after, event)) :
    Works job trace before after slot tile event := by
  rw [hpc] at hstands
  change before.flag tile = .aggregateAvailable at hstands
  simp only [stepSlot, hpc] at hstep
  split at hstep
  · obtain ⟨rfl, rfl⟩ := by simpa using hstep
    exact .of_setPc rfl rfl (update_flag_self before tile) rfl rfl
      (by simp [hpc]) le_rfl ⟨by simp, by simp [hstands], by simp⟩ (.inl rfl)
      (by simp)
  · obtain ⟨rfl, rfl⟩ := by simpa using hstep
    exact .of_setPc rfl rfl (update_flag_self before tile) rfl rfl
      (by simp [hpc]) le_rfl hstands (.inl rfl) (by simp)

theorem rank_le (flag : Flag) : flag.rank ≤ Flag.prefixAvailable.rank := by
  cases flag <;> decide

theorem publishPrefix_works {myPrefix : T}
    (hpc : before.pc slot = .publishPrefix tile myPrefix)
    (hstep : stepSlot job before slot = some (after, event)) :
    Works job trace before after slot tile event := by
  simp only [stepSlot, hpc] at hstep
  split at hstep
  · obtain ⟨rfl, rfl⟩ := by simpa using hstep
    exact .of_setPc rfl rfl rfl rfl rfl (by simp [hpc]) (rank_le _) trivial
      (.inr ⟨rfl, rfl⟩) (by simp)
  · obtain ⟨rfl, rfl⟩ := by simpa using hstep
    exact .of_setPc rfl rfl rfl rfl rfl (by simp [hpc]) (rank_le _)
      ⟨by simp [State.setFlag], le_rfl⟩ (.inl rfl) (by simp)

theorem pass2_works {index : ℕ} {myPrefix : T}
    (hpc : before.pc slot = .pass2 tile index myPrefix)
    (hstands : Stands job trace before (before.pc slot))
    (hstep : stepSlot job before slot = some (after, event)) :
    Works job trace before after slot tile event := by
  rw [hpc] at hstands
  obtain ⟨hflag, hlo⟩ := hstands
  simp only [stepSlot, hpc] at hstep
  split at hstep
  next hless =>
    split at hstep
    · obtain ⟨rfl, rfl⟩ := by simpa using hstep
      exact .of_setPc rfl rfl (update_flag_self before tile) rfl rfl
        (by simp [hpc]) le_rfl ⟨by simp, by simp [hflag],
          fun other heq => by cases heq; exact ⟨hlo, hless⟩⟩ (.inl rfl)
        (by simp)
    · obtain ⟨rfl, rfl⟩ := by simpa using hstep
      exact .of_setPc rfl rfl (update_flag_self before tile) rfl rfl
        (by simp [hpc]) le_rfl ⟨hflag, by omega⟩ (.inl rfl) (by simp)
  next =>
    obtain ⟨rfl, rfl⟩ := by simpa using hstep
    exact .of_setPc rfl rfl (update_flag_self before tile) rfl rfl
      (by simp [hpc]) le_rfl trivial (.inr ⟨rfl, hflag⟩) (by simp)

theorem giveUp_works (hpc : before.pc slot = .giveUp tile)
    (hstep : stepSlot job before slot = some (after, event)) :
    Works job trace before after slot tile event := by
  simp only [stepSlot, hpc, Option.some.injEq, Prod.mk.injEq] at hstep
  obtain ⟨rfl, rfl⟩ := hstep
  exact .of_setPc rfl rfl rfl rfl rfl (by simp [hpc]) (rank_le _) trivial
    (.inr ⟨rfl, rfl⟩) (by simp)

/-- The catch block keeps the exception that came first. -/
theorem capture_works {site : Site} (hpc : before.pc slot = .capture site tile)
    (hstands : Stands job trace before (before.pc slot))
    (hstep : stepSlot job before slot = some (after, event)) :
    Works job trace before after slot tile event := by
  rw [hpc] at hstands
  obtain ⟨hthrew, hpublished, hin⟩ := hstands
  simp only [stepSlot, hpc, Option.some.injEq, Prod.mk.injEq] at hstep
  obtain ⟨rfl, rfl⟩ := hstep
  constructor
  · intro other hother
    simp [State.setPc, hother]
  · rfl
  · exact fun _ _ => rfl
  · exact le_rfl
  · rfl
  · simp only [State.setPc, Function.update_self]
    intro hflag
    obtain ⟨index, rfl⟩ := hpublished.1 hflag
    exact ⟨index, hin index rfl, List.mem_append_left _ hthrew⟩
  · exact .inl (by simp [State.setPc, Pc.tile])
  · intro other hother
    cases hfirst : before.firstException <;>
      simp_all [State.setPc, captureFirstException]
  · intro _
    cases hfirst : before.firstException <;>
      simp_all [State.setPc, captureFirstException]
  · intro _ _
    cases hfirst : before.firstException <;>
      simp_all [State.setPc, captureFirstException]
  · intro other hother
    simp at hother

theorem stepSlot_works (hheld : (before.pc slot).tile = some tile)
    (hstands : Stands job trace before (before.pc slot))
    (hstep : stepSlot job before slot = some (after, event)) :
    Works job trace before after slot tile event := by
  cases hpc : before.pc slot with
  | loadFailed held =>
      obtain rfl : held = tile := by simpa [hpc, Pc.tile] using hheld
      exact loadFailed_works hpc hstands hstep
  | pass1 held index localTotal =>
      obtain rfl : held = tile := by simpa [hpc, Pc.tile] using hheld
      exact pass1_works hpc hstands hstep
  | publishAggregate held localTotal =>
      obtain rfl : held = tile := by simpa [hpc, Pc.tile] using hheld
      exact publishAggregate_works hpc hstands hstep
  | walk held cursor accum =>
      obtain rfl : held = tile := by simpa [hpc, Pc.tile] using hheld
      exact walk_works hpc hstands hstep
  | stitch held peer leftCombined accum =>
      obtain rfl : held = tile := by simpa [hpc, Pc.tile] using hheld
      exact stitch_works hpc hstands hstep
  | publishPrefix held myPrefix =>
      obtain rfl : held = tile := by simpa [hpc, Pc.tile] using hheld
      exact publishPrefix_works hpc hstep
  | pass2 held index myPrefix =>
      obtain rfl : held = tile := by simpa [hpc, Pc.tile] using hheld
      exact pass2_works hpc hstands hstep
  | capture site held =>
      obtain rfl : held = tile := by simpa [hpc, Pc.tile] using hheld
      exact capture_works hpc hstands hstep
  | giveUp held =>
      obtain rfl : held = tile := by simpa [hpc, Pc.tile] using hheld
      exact giveUp_works hpc hstep
  | _ => simp [hpc, Pc.tile] at hheld

end Frames

/-! ## Every step keeps the invariant -/

section Steps

variable {job : Job T} {trace : List Event} {before after : State T}
variable {slot tile : ℕ} {event : Option Event}

theorem ThrowInv.claimed_of_held (hinv : ThrowInv job trace before)
    (hslot : slot < job.shape.participants)
    (hheld : (before.pc slot).tile = some tile) : Claimed job before tile := by
  obtain ⟨howns, hless⟩ := hinv.held slot hslot tile hheld
  exact ⟨_, job.shape.clusters.id_lt slot hslot, howns, hless⟩

/-- Nothing is returned while a slot runs. -/
theorem ThrowInv.running (hinv : ThrowInv job trace before)
    (hslot : slot < job.shape.participants)
    (hstays : (before.pc slot).hasLeft = false) : before.outcome = none := by
  cases houtcome : before.outcome with
  | none => rfl
  | some outcome =>
      have hall := (hinv.outcome outcome houtcome).1
      rw [not_allLeft hslot hstays] at hall
      cases hall

theorem mem_append_event {site : Site}
    (hmem : .threw site ∈ trace ++ event.toList) :
    .threw site ∈ trace ∨ event = some (.threw site) := by
  rcases List.mem_append.mp hmem with hold | hnew
  · exact .inl hold
  · exact .inr (by simpa using hnew)

/-- A step on a held tile. -/
theorem ThrowInv.work (hinv : ThrowInv job trace before)
    (hslot : slot < job.shape.participants)
    (hheld : (before.pc slot).tile = some tile)
    (hworks : Works job trace before after slot tile event) :
    ThrowInv job (trace ++ event.toList) after := by
  have hclaimed : ∀ other, Claimed job after other ↔ Claimed job before other := by
    intro other
    unfold Claimed
    rw [hworks.next]
  have htile : ∀ other held, (after.pc other).tile = some held →
      (before.pc other).tile = some held := by
    intro other held hholds
    by_cases hmine : other = slot
    · subst hmine
      rcases hworks.keeps with hkeeps | ⟨hclaim, -⟩
      · rw [← hholds, hkeeps, hheld]
      · simp [hclaim, Pc.tile] at hholds
    · rwa [hworks.others other hmine] at hholds
  have hmine : ∀ other < job.shape.participants, ∀ held,
      (before.pc other).tile = some held → other ≠ slot → held ≠ tile := by
    rintro other hother held hholds hne rfl
    exact hne (hinv.unique other hother slot hslot held hholds hheld)
  have hrunning := hinv.running hslot (hasLeft_of_tile hheld)
  constructor
  · intro other hother held hholds
    rw [hworks.next]
    exact hinv.held other hother held (htile other held hholds)
  · intro left hleft right hright held hholdsLeft hholdsRight
    exact hinv.unique left hleft right hright held
      (htile left held hholdsLeft) (htile right held hholdsRight)
  · rw [hworks.next]
    exact hinv.started
  · intro other hother hleft
    rw [hworks.next]
    refine hinv.drained other hother ?_
    by_cases hself : other = slot
    · subst hself
      rcases hworks.keeps with hkeeps | ⟨hclaim, -⟩
      · simp [hasLeft_of_tile hkeeps] at hleft
      · simp [hclaim, Pc.hasLeft] at hleft
    · rwa [hworks.others other hself] at hleft
  · intro other hother
    by_cases hself : other = slot
    · exact hself ▸ hworks.stands
    · rw [hworks.others other hself]
      refine (hinv.slots other hother).frame ?_ _
      intro held hholds
      exact hworks.flags held (hmine other hother held hholds hself)
  · intro other hfresh
    rw [hclaimed] at hfresh
    have hne : other ≠ tile := by
      rintro rfl
      exact hfresh (hinv.claimed_of_held hslot hheld)
    rw [hworks.flags other hne]
    exact hinv.fresh other hfresh
  · intro other hother hnobody
    rw [hclaimed] at hother
    by_cases hsame : other = tile
    · subst hsame
      rcases hworks.keeps with hkeeps | ⟨-, hflag⟩
      · exact absurd hkeeps (hnobody slot hslot)
      · exact hflag
    · rw [hworks.flags other hsame]
      refine hinv.released other hother fun peer hpeer hholds => ?_
      by_cases hself : peer = slot
      · subst hself
        exact hsame (Option.some.inj (hholds.symm.trans hheld))
      · exact hnobody peer hpeer (by rw [hworks.others peer hself, hholds])
  · intro site hsite
    refine List.mem_append_left _ ?_
    rcases hworks.thrown site hsite with hold | hthrew
    · exact hinv.thrown site hold
    · exact hthrew
  · intro site hsite
    rcases mem_append_event hsite with hold | hnew
    · rcases hinv.captured site hold with hsome | ⟨other, hother, first, held, hpc⟩
      · exact .inl (hworks.stays hsome)
      by_cases hself : other = slot
      · subst hself
        obtain rfl : held = tile := by simpa [hpc, Pc.tile] using hheld
        exact .inl (hworks.captures first hpc)
      · exact .inr ⟨other, hother, first, held, by
          rw [hworks.others other hself, hpc]⟩
    · exact .inr ⟨slot, hslot, site, tile, hworks.throws site hnew⟩
  · intro outcome houtcome
    rw [hworks.outcome, hrunning] at houtcome
    cases houtcome

/-- The tile a claim hands out. -/
theorem ThrowInv.claim (hinv : ThrowInv job trace before)
    (hslot : slot < job.shape.participants) (hpc : before.pc slot = .claim)
    (hless : before.clusterNextTile (job.shape.clusters.clusterIdOfSlot slot) <
      job.shape.clusterLastTile (job.shape.clusters.clusterIdOfSlot slot))
    (events : List Event) (hcalm : ∀ site, .threw site ∉ events) :
    ThrowInv job (trace ++ events)
      ((before.fetchAdd (job.shape.clusters.clusterIdOfSlot slot)).setPc slot
        (.loadFailed (before.clusterNextTile
          (job.shape.clusters.clusterIdOfSlot slot)))) := by
  set cluster := job.shape.clusters.clusterIdOfSlot slot with hcluster
  set tile := before.clusterNextTile cluster with htile
  have howns : job.shape.Owns cluster tile := ⟨hinv.started cluster, hless⟩
  have hnew : ¬ Claimed job before tile := not_claimed_next howns
  have hclaimed : ∀ other,
      Claimed job ((before.fetchAdd cluster).setPc slot (.loadFailed tile))
        other ↔ Claimed job before other ∨ other = tile := by
    intro other
    refine (claimed_fetchAdd_iff
      (job.shape.clusters.id_lt slot hslot)).trans (or_congr Iff.rfl ?_)
    exact ⟨fun hboth => hboth.2, fun hsame => ⟨hsame ▸ howns, hsame⟩⟩
  have hforeign : ∀ other < job.shape.participants, ∀ held,
      (before.pc other).tile = some held → held ≠ tile := by
    rintro other hother held hholds rfl
    exact hnew (hinv.claimed_of_held hother hholds)
  have hothers : ∀ other, other ≠ slot →
      (((before.fetchAdd cluster).setPc slot (.loadFailed tile)).pc other) =
        before.pc other := by
    intro other hother
    simp [State.setPc, State.fetchAdd, hother]
  have hself : ((before.fetchAdd cluster).setPc slot
      (.loadFailed tile)).pc slot = .loadFailed tile := by
    simp [State.setPc]
  have hrunning := hinv.running hslot (by rw [hpc]; rfl)
  constructor
  · intro other hother held hheld
    by_cases hmine : other = slot
    · subst hmine
      obtain rfl : tile = held := by simpa [hself, Pc.tile] using hheld
      exact ⟨howns, by simp [State.setPc, State.fetchAdd, ← hcluster, htile]⟩
    · rw [hothers other hmine] at hheld
      obtain ⟨hown, hnext⟩ := hinv.held other hother held hheld
      exact ⟨hown, hnext.trans_le (fetchAdd_le cluster _)⟩
  · intro left hleft right hright held hheldLeft hheldRight
    by_cases hl : left = slot <;> by_cases hr : right = slot
    · rw [hl, hr]
    · subst hl
      obtain rfl : tile = held := by simpa [hself, Pc.tile] using hheldLeft
      rw [hothers right hr] at hheldRight
      exact absurd rfl (hforeign right hright tile hheldRight)
    · subst hr
      obtain rfl : tile = held := by simpa [hself, Pc.tile] using hheldRight
      rw [hothers left hl] at hheldLeft
      exact absurd rfl (hforeign left hleft tile hheldLeft)
    · rw [hothers left hl] at hheldLeft
      rw [hothers right hr] at hheldRight
      exact hinv.unique left hleft right hright held hheldLeft hheldRight
  · intro other
    exact (hinv.started other).trans (fetchAdd_le cluster other)
  · intro other hother hleft
    by_cases hmine : other = slot
    · subst hmine
      simp [hself, Pc.hasLeft] at hleft
    · rw [hothers other hmine] at hleft
      exact (hinv.drained other hother hleft).trans (fetchAdd_le cluster _)
  · intro other hother
    by_cases hmine : other = slot
    · subst hmine
      rw [hself]
      exact hinv.fresh tile hnew
    · rw [hothers other hmine]
      exact (hinv.slots other hother).frame (fun _ _ => rfl) _
  · intro other hfresh
    rw [hclaimed, not_or] at hfresh
    exact hinv.fresh other hfresh.1
  · intro other hother hnobody
    rw [hclaimed] at hother
    have hne : other ≠ tile := by
      rintro rfl
      exact hnobody slot hslot (by rw [hself]; rfl)
    refine hinv.released other (hother.resolve_right hne) ?_
    intro peer hpeer hheld
    by_cases hmine : peer = slot
    · subst hmine
      simp [hpc, Pc.tile] at hheld
    · exact hnobody peer hpeer (by rw [hothers peer hmine, hheld])
  · exact fun site hsite => List.mem_append_left _ (hinv.thrown site hsite)
  · intro site hsite
    have hold := (List.mem_append.mp hsite).resolve_right (hcalm site)
    rcases hinv.captured site hold with hsome | ⟨other, hother, first, held, hat⟩
    · exact .inl hsome
    · have hne : other ≠ slot := by
        rintro rfl
        simp [hpc] at hat
      exact .inr ⟨other, hother, first, held, by rw [hothers other hne, hat]⟩
  · intro outcome houtcome
    change before.outcome = some outcome at houtcome
    rw [hrunning] at houtcome
    cases houtcome

/-- The last `fetch_add` of a slot. -/
theorem ThrowInv.drain (hinv : ThrowInv job trace before)
    (hslot : slot < job.shape.participants) (hpc : before.pc slot = .claim)
    (hmore : job.shape.clusterLastTile
        (job.shape.clusters.clusterIdOfSlot slot) ≤
      before.clusterNextTile (job.shape.clusters.clusterIdOfSlot slot)) :
    ThrowInv job trace
      ((before.fetchAdd (job.shape.clusters.clusterIdOfSlot slot)).setPc slot
        .left) := by
  set cluster := job.shape.clusters.clusterIdOfSlot slot with hcluster
  have hclaimed : ∀ other,
      Claimed job ((before.fetchAdd cluster).setPc slot .left) other ↔
        Claimed job before other := by
    intro other
    refine (claimed_fetchAdd_iff
      (job.shape.clusters.id_lt slot hslot)).trans (or_iff_left ?_)
    rintro ⟨howns, rfl⟩
    exact absurd (howns.2.trans_le hmore) (lt_irrefl _)
  have hothers : ∀ other, other ≠ slot →
      (((before.fetchAdd cluster).setPc slot .left).pc other) =
        before.pc other := by
    intro other hother
    simp [State.setPc, State.fetchAdd, hother]
  have hself : ((before.fetchAdd cluster).setPc slot .left).pc slot =
      .left := by
    simp [State.setPc]
  have htiles : ∀ other,
      (((before.fetchAdd cluster).setPc slot .left).pc other).tile =
        (before.pc other).tile := by
    intro other
    by_cases hmine : other = slot
    · subst hmine
      simp [hself, hpc, Pc.tile]
    · rw [hothers other hmine]
  have hrunning := hinv.running hslot (by rw [hpc]; rfl)
  constructor
  · intro other hother held hheld
    rw [htiles] at hheld
    obtain ⟨hown, hnext⟩ := hinv.held other hother held hheld
    exact ⟨hown, hnext.trans_le (fetchAdd_le cluster _)⟩
  · intro left hleft right hright held hheldLeft hheldRight
    rw [htiles] at hheldLeft hheldRight
    exact hinv.unique left hleft right hright held hheldLeft hheldRight
  · intro other
    exact (hinv.started other).trans (fetchAdd_le cluster other)
  · intro other hother hleft
    by_cases hmine : other = slot
    · subst hmine
      exact hmore.trans (fetchAdd_le cluster _)
    · rw [hothers other hmine] at hleft
      exact (hinv.drained other hother hleft).trans (fetchAdd_le cluster _)
  · intro other hother
    by_cases hmine : other = slot
    · subst hmine
      rw [hself]
      trivial
    · rw [hothers other hmine, ← List.append_nil trace]
      exact (hinv.slots other hother).frame (fun _ _ => rfl) []
  · intro other hfresh
    rw [hclaimed] at hfresh
    exact hinv.fresh other hfresh
  · intro other hother hnobody
    rw [hclaimed] at hother
    refine hinv.released other hother fun peer hpeer => ?_
    rw [← htiles]
    exact hnobody peer hpeer
  · exact hinv.thrown
  · intro site hsite
    rcases hinv.captured site hsite with hsome | ⟨other, hother, first, held, hat⟩
    · exact .inl hsome
    · have hne : other ≠ slot := by
        rintro rfl
        simp [hpc] at hat
      exact .inr ⟨other, hother, first, held, by rw [hothers other hne, hat]⟩
  · intro outcome houtcome
    change before.outcome = some outcome at houtcome
    rw [hrunning] at houtcome
    cases houtcome

theorem stepSlot_throwInv (hinv : ThrowInv job trace before)
    (hslot : slot < job.shape.participants)
    (hstep : stepSlot job before slot = some (after, event)) :
    ThrowInv job (trace ++ event.toList) after := by
  have hstands := hinv.slots slot hslot
  cases hheld : (before.pc slot).tile with
  | some tile =>
      exact hinv.work hslot hheld (stepSlot_works hheld hstands hstep)
  | none =>
      cases hpc : before.pc slot with
      | claim =>
          simp only [stepSlot, hpc] at hstep
          split at hstep
          next hmore =>
            obtain ⟨rfl, rfl⟩ := by simpa using hstep
            simp only [Option.toList_none, List.append_nil]
            exact hinv.drain hslot hpc hmore
          next hless =>
            obtain ⟨rfl, rfl⟩ := by simpa using hstep
            exact hinv.claim hslot hpc (not_le.mp hless) _ (by simp)
      | left => simp [stepSlot, hpc] at hstep
      | pollToken => exact absurd hstands (by rw [hpc]; exact id)
      | serial => exact absurd hstands (by rw [hpc]; exact id)
      | _ => simp [hpc, Pc.tile] at hheld

theorem ends_joinOutcome (job : Job T) (state : State T) :
    Ends job state.firstException (joinOutcome job state) := by
  unfold Ends joinOutcome
  cases state.firstException with
  | some site => rfl
  | none =>
      intro site herror
      simp only at herror
      split at herror
      · cases herror
      split at herror
      next htotal =>
        cases herror
        exact ⟨rfl, htotal⟩
      next => cases herror

theorem throwInv_step {action : Action} (hinv : ThrowInv job trace before)
    (hstep : (inclusiveScan job).step before action = some (after, event)) :
    ThrowInv job (trace ++ event.toList) after := by
  cases action with
  | slot slot =>
      simp only [inclusiveScan] at hstep
      split at hstep
      next hslot => exact stepSlot_throwInv hinv hslot hstep
      next => simp at hstep
  | join =>
      simp only [inclusiveScan] at hstep
      split at hstep
      next hready =>
        obtain ⟨rfl, rfl⟩ := by simpa using hstep
        simp only [Option.toList_none, List.append_nil]
        exact { hinv with
          slots := by
            intro slot hslot
            rw [← List.append_nil trace]
            exact (hinv.slots slot hslot).frame (fun _ _ => rfl) []
          outcome := by
            intro outcome houtcome
            obtain rfl := Option.some.inj houtcome
            exact ⟨hready.2, ends_joinOutcome job before⟩ }
      next => simp at hstep
  | requestStop =>
      obtain ⟨rfl, rfl⟩ := by simpa [inclusiveScan] using hstep
      simp only [Option.toList_none, List.append_nil]
      exact { hinv with
        slots := by
          intro slot hslot
          rw [← List.append_nil trace]
          exact (hinv.slots slot hslot).frame (fun _ _ => rfl) [] }

theorem throwInv_start (job : Job T) (hpath : job.shape.path = .tiled)
    (scratch : ℕ → T) : ThrowInv job [] (start job scratch) := by
  have hpc : ∀ slot, (start job scratch).pc slot = .claim := by
    intro slot
    simp [start, hpath]
  constructor
  · intro slot _ tile hheld
    simp [hpc, Pc.tile] at hheld
  · intro slot _ other _ tile hheld
    simp [hpc, Pc.tile] at hheld
  · exact fun _ => le_rfl
  · intro slot _ hleft
    simp [hpc, Pc.hasLeft] at hleft
  · intro slot _
    rw [hpc]
    trivial
  · exact fun _ _ => rfl
  · rintro tile ⟨cluster, -, howns, hless⟩ -
    exact absurd (howns.1.trans_lt hless) (lt_irrefl _)
  · intro site hsite
    cases hsite
  · intro site hsite
    cases hsite
  · intro outcome houtcome
    simp [start, hpath] at houtcome

theorem throwInv_run {scratch : ℕ → T} {state : State T}
    (hpath : job.shape.path = .tiled)
    (run : Reaches (inclusiveScan job) (start job scratch) trace state) :
    ThrowInv job trace state :=
  run.invariant (ThrowInv job) (throwInv_start job hpath scratch)
    fun hinv _ hstep => throwInv_step hinv hstep

theorem ThrowInv.progressing {state : State T}
    (hinv : ThrowInv job trace state) : Progressing job state where
  held := hinv.held
  drained := hinv.drained
  waits := by
    intro slot hslot tile cursor accum hpc
    have hstands := hinv.slots slot hslot
    rw [hpc] at hstands
    exact ⟨by simp [hstands.1], hstands.2⟩
  released := by
    intro tile hclaimed hnobody
    simp [hinv.released tile hclaimed hnobody]

end Steps

end Citor.Lookback
