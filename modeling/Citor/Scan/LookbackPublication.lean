import Citor.Scan.LookbackThrowSafety

/-!
# What a tile has published

Aggregate and prefix of a tile are plain fields that the flag publishes.  The
catch block of a tile stores into the prefix once more, which is a second store
exactly for the tiles whose Pass 2 throws.
-/

namespace Citor.Lookback

open Citor.Interleaving

variable {T : Type*}

/-- The tile whose `aggregate` the next step of a slot stores into. -/
def Pc.writesAggregate : Pc T → Option ℕ
  | .publishAggregate tile _ => some tile
  | _ => none

/-- The tile whose `prefix` the next step of a slot stores into. -/
def Pc.writesPrefix : Pc T → Option ℕ
  | .publishPrefix tile _ | .giveUp tile => some tile
  | _ => none

/-- Nobody is about to store into a published field. -/
structure Immutable (job : Job T) (state : State T) : Prop where
  aggregates : ∀ slot < job.shape.participants, ∀ tile,
    (state.pc slot).writesAggregate = some tile →
      state.flag tile = .initialized
  prefixes : ∀ slot < job.shape.participants, ∀ tile,
    (state.pc slot).writesPrefix = some tile →
      state.flag tile ≠ .prefixAvailable

/-- What was published before is still there after. -/
structure Kept (before after : State T) : Prop where
  aggregates : ∀ tile, before.flag tile ≠ .initialized →
    after.flag tile ≠ .initialized ∧
      after.aggregate tile = before.aggregate tile
  prefixes : ∀ tile, before.flag tile = .prefixAvailable →
    after.flag tile = .prefixAvailable ∧
      after.tilePrefix tile = before.tilePrefix tile

theorem Kept.refl (state : State T) : Kept state state :=
  ⟨fun _ hflag => ⟨hflag, rfl⟩, fun _ hflag => ⟨hflag, rfl⟩⟩

theorem Kept.trans {first second third : State T} (hfirst : Kept first second)
    (hsecond : Kept second third) : Kept first third where
  aggregates tile hflag := by
    obtain ⟨hmiddle, hvalue⟩ := hfirst.aggregates tile hflag
    obtain ⟨hlast, hlater⟩ := hsecond.aggregates tile hmiddle
    exact ⟨hlast, hlater.trans hvalue⟩
  prefixes tile hflag := by
    obtain ⟨hmiddle, hvalue⟩ := hfirst.prefixes tile hflag
    obtain ⟨hlast, hlater⟩ := hsecond.prefixes tile hmiddle
    exact ⟨hlast, hlater.trans hvalue⟩

section Steps

variable {job : Job T} {trace : List Event} {before after state : State T}
variable {slot tile : ℕ} {event : Option Event}

/-- The program counter says which fields a step stores into. -/
theorem stepSlot_payload (hstep : stepSlot job before slot = some (after, event)) :
    (∀ tile, (before.pc slot).writesAggregate ≠ some tile →
      after.aggregate tile = before.aggregate tile) ∧
    ∀ tile, (before.pc slot).writesPrefix ≠ some tile →
      after.tilePrefix tile = before.tilePrefix tile := by
  cases hpc : before.pc slot with
  | publishAggregate held localTotal =>
      simp only [stepSlot, hpc, Option.some.injEq, Prod.mk.injEq] at hstep
      obtain ⟨rfl, rfl⟩ := hstep
      refine ⟨fun tile hother => ?_, fun tile _ => rfl⟩
      have hne : tile ≠ held := by
        rintro rfl
        exact hother rfl
      simp [State.setPc, State.setFlag, State.setAggregate, hne]
  | publishPrefix held myPrefix =>
      have hpayload : ∀ pc : Pc T, ∀ tile,
          (Pc.publishPrefix held myPrefix).writesPrefix ≠ some tile →
            (((before.setPrefix held myPrefix).setFlag held
              .prefixAvailable).setPc slot pc).tilePrefix tile =
                before.tilePrefix tile := by
        intro pc tile hother
        have hne : tile ≠ held := by
          rintro rfl
          exact hother rfl
        simp [State.setPc, State.setFlag, State.setPrefix, hne]
      simp only [stepSlot, hpc] at hstep
      split at hstep
      all_goals
        obtain ⟨rfl, rfl⟩ := by simpa using hstep
        exact ⟨fun _ _ => rfl, hpayload _⟩
  | giveUp held =>
      simp only [stepSlot, hpc, Option.some.injEq, Prod.mk.injEq] at hstep
      obtain ⟨rfl, rfl⟩ := hstep
      refine ⟨fun tile _ => rfl, fun tile hother => ?_⟩
      have hne : tile ≠ held := by
        rintro rfl
        exact hother rfl
      simp [State.setPc, State.setFlag, State.setPrefix, hne]
  | _ =>
      simp only [stepSlot, hpc] at hstep
      repeat' split at hstep
      all_goals
        first
          | (simp only [reduceCtorEq] at hstep)
          | (simp only [Option.some.injEq, Prod.mk.injEq] at hstep
             obtain ⟨rfl, rfl⟩ := hstep
             exact ⟨fun _ _ => rfl, fun _ _ => rfl⟩)

theorem rank_eq_zero {flag : Flag} : flag.rank = 0 ↔ flag = .initialized := by
  cases flag <;> decide

theorem rank_eq_two {flag : Flag} :
    2 ≤ flag.rank ↔ flag = .prefixAvailable := by
  cases flag <;> decide

/-- A step from a state in which nobody overwrites keeps what is published. -/
theorem kept_of_step {action : Action} (himmutable : Immutable job before)
    (hsafe : ThrowSafe job trace before)
    (hstep : (inclusiveScan job).step before action = some (after, event)) :
    Kept before after := by
  have hupward := hsafe.upward action after event hstep
  have hpayload : ∀ tile,
      (before.flag tile ≠ .initialized →
        after.aggregate tile = before.aggregate tile) ∧
      (before.flag tile = .prefixAvailable →
        after.tilePrefix tile = before.tilePrefix tile) := by
    intro tile
    cases action with
    | slot slot =>
        simp only [inclusiveScan] at hstep
        split at hstep
        next hslot =>
          obtain ⟨haggregate, hprefix⟩ := stepSlot_payload hstep
          refine ⟨fun hflag => haggregate tile fun hwrites => ?_,
            fun hflag => hprefix tile fun hwrites => ?_⟩
          · exact hflag (himmutable.aggregates slot hslot tile hwrites)
          · exact himmutable.prefixes slot hslot tile hwrites hflag
        next => simp at hstep
    | join =>
        simp only [inclusiveScan] at hstep
        split at hstep
        · obtain ⟨rfl, rfl⟩ := by simpa using hstep
          exact ⟨fun _ => rfl, fun _ => rfl⟩
        · simp at hstep
    | requestStop =>
        obtain ⟨rfl, rfl⟩ := by simpa [inclusiveScan] using hstep
        exact ⟨fun _ => rfl, fun _ => rfl⟩
  constructor
  · intro tile hflag
    refine ⟨fun hzero => hflag ?_, (hpayload tile).1 hflag⟩
    rw [← rank_eq_zero] at hzero ⊢
    exact Nat.eq_zero_of_le_zero ((hupward tile).trans hzero.le)
  · intro tile hflag
    refine ⟨?_, (hpayload tile).2 hflag⟩
    rw [← rank_eq_two] at hflag ⊢
    exact hflag.trans (hupward tile)

/-- A store into a published field belongs to a tile whose Pass 2 threw. -/
theorem ThrowInv.immutable (hinv : ThrowInv job trace state)
    (hcalm : ∀ index, .threw (.pass2 index) ∉ trace) : Immutable job state where
  aggregates := by
    intro slot hslot tile hwrites
    have hstands := hinv.slots slot hslot
    cases hpc : state.pc slot <;> rw [hpc] at hwrites hstands
    case publishAggregate held localTotal =>
      obtain rfl : held = tile := by simpa [Pc.writesAggregate] using hwrites
      exact hstands
    all_goals cases hwrites
  prefixes := by
    intro slot hslot tile hwrites hflag
    have hstands := hinv.slots slot hslot
    cases hpc : state.pc slot <;> rw [hpc] at hwrites hstands
    case publishPrefix held myPrefix =>
      obtain rfl : held = tile := by simpa [Pc.writesPrefix] using hwrites
      change state.flag held = .aggregateAvailable at hstands
      simp [hstands] at hflag
    case giveUp held =>
      obtain rfl : held = tile := by simpa [Pc.writesPrefix] using hwrites
      obtain ⟨index, -, hthrew⟩ := hstands hflag
      exact hcalm index hthrew
    all_goals cases hwrites

theorem SerialThrowInv.immutable (hinv : SerialThrowInv job trace state) :
    Immutable job state := by
  have hpcOk := hinv.pc
  have hnobody : ∀ slot, (state.pc slot).writesAggregate = none ∧
      (state.pc slot).writesPrefix = none := by
    intro slot
    by_cases hzero : slot = 0
    · subst hzero
      cases hpc : state.pc 0 <;> rw [hpc] at hpcOk
      case pollToken => exact ⟨rfl, rfl⟩
      case serial => exact ⟨rfl, rfl⟩
      case left => exact ⟨rfl, rfl⟩
      all_goals exact hpcOk.elim
    · rw [hinv.alone slot hzero]
      exact ⟨rfl, rfl⟩
  constructor
  · intro slot _ tile hwrites
    simp [hnobody slot] at hwrites
  · intro slot _ tile hwrites
    simp [hnobody slot] at hwrites

theorem immutable_of_calm {scratch : ℕ → T}
    (run : Reaches (inclusiveScan job) (start job scratch) trace state)
    (hcalm : ∀ index, .threw (.pass2 index) ∉ trace) : Immutable job state := by
  by_cases hpath : job.shape.path = .tiled
  · exact (throwInv_run hpath run).immutable hcalm
  · exact (serialThrowInv_run hpath run).immutable

end Steps

section Runs

variable {job : Job T} {scratch : ℕ → T}

/-- Whatever a run has published stays as long as no Pass-2 call throws. -/
theorem kept_of_calm {earlier later : List Event} {before state : State T}
    (hbefore : Reaches (inclusiveScan job) (start job scratch) earlier before)
    (hafter : Reaches (inclusiveScan job) before later state)
    (hcalm : ∀ index, .threw (.pass2 index) ∉ earlier ++ later) :
    Kept before state := by
  have hboth : Reaches (inclusiveScan job) (start job scratch)
      (earlier ++ later) state ∧
      ((∀ index, .threw (.pass2 index) ∉ earlier ++ later) →
        Kept before state) := by
    refine hafter.invariant (fun later state =>
      Reaches (inclusiveScan job) (start job scratch) (earlier ++ later) state ∧
        ((∀ index, .threw (.pass2 index) ∉ earlier ++ later) →
          Kept before state)) ?_ ?_
    · exact ⟨by simpa using hbefore, fun _ => .refl before⟩
    · rintro later middle action after event ⟨run, hkept⟩ _ hstep
      rw [← List.append_assoc]
      refine ⟨.next run trivial hstep, fun hcalm => ?_⟩
      have hquiet : ∀ index, .threw (.pass2 index) ∉ earlier ++ later :=
        fun index hmem => hcalm index (List.mem_append_left _ hmem)
      exact (hkept hquiet).trans (kept_of_step (immutable_of_calm run hquiet)
        (throwSafe_of_run job scratch run) hstep)
  exact hboth.2 hcalm

/-- Pass 2 throws into the catch block of its tile. -/
theorem capture_of_threw {before after : State T} {slot index : ℕ}
    (hstep : stepSlot job before slot =
      some (after, some (.threw (.pass2 index)))) :
    ∃ tile, after.pc slot = .capture (.pass2 index) tile := by
  cases hpc : before.pc slot with
  | pass2 tile other myPrefix =>
      simp only [stepSlot, hpc] at hstep
      repeat' split at hstep
      · obtain ⟨rfl, rfl⟩ := by simpa using hstep
        exact ⟨tile, by simp [State.setPc]⟩
      all_goals simp at hstep
  | _ =>
      simp only [stepSlot, hpc] at hstep
      repeat' split at hstep
      all_goals simp at hstep

/-- When a Pass-2 call throws, its slot stands in front of the catch block. -/
theorem exists_caught {trace : List Event} {state : State T} {index : ℕ}
    (run : Reaches (inclusiveScan job) (start job scratch) trace state)
    (hthrew : .threw (.pass2 index) ∈ trace) :
    ∃ trace state, Reaches (inclusiveScan job) (start job scratch) trace state ∧
      ∃ slot < job.shape.participants, ∃ tile,
        state.pc slot = .capture (.pass2 index) tile := by
  induction run with
  | start => cases hthrew
  | @next trace before action after event run _ hstep ih =>
      rcases mem_append_event hthrew with hold | rfl
      · exact ih hold
      refine ⟨_, after, .next run trivial hstep, ?_⟩
      cases action with
      | slot slot =>
          simp only [inclusiveScan] at hstep
          split at hstep
          next hslot => exact ⟨slot, hslot, capture_of_threw hstep⟩
          next => simp at hstep
      | join =>
          simp only [inclusiveScan] at hstep
          split at hstep <;> simp at hstep
      | requestStop => simp [inclusiveScan] at hstep

/-- The catch block of a Pass-2 call stores into a published prefix. -/
theorem not_immutable_of_threw {trace : List Event} {state : State T}
    {index : ℕ}
    (run : Reaches (inclusiveScan job) (start job scratch) trace state)
    (hthrew : .threw (.pass2 index) ∈ trace) :
    ∃ trace state, Reaches (inclusiveScan job) (start job scratch) trace state ∧
      ¬ Immutable job state := by
  obtain ⟨trace, state, run, slot, hslot, tile, hpc⟩ := exists_caught run hthrew
  have hpath : job.shape.path = .tiled := by
    by_contra hserial
    have hinv := serialThrowInv_run hserial run
    have hpcOk := hinv.pc
    by_cases hzero : slot = 0
    · subst hzero
      rw [hpc] at hpcOk
      exact hpcOk
    · rw [hinv.alone slot hzero] at hpc
      cases hpc
  have hstands := (throwInv_run hpath run).slots slot hslot
  rw [hpc] at hstands
  have hflag := hstands.2.1.2 ⟨index, rfl⟩
  have hstep : stepSlot job state slot = some ({ state with
      firstException := DoneSlots.captureFirstException state.firstException
        (.pass2 index) }.setPc slot (.giveUp tile),
      some (.captured (.pass2 index))) := by
    simp only [stepSlot, hpc]
  have hnext : (inclusiveScan job).step state (.slot slot) = some ({ state with
      firstException := DoneSlots.captureFirstException state.firstException
        (.pass2 index) }.setPc slot (.giveUp tile),
      some (.captured (.pass2 index))) := by
    simp only [inclusiveScan, if_pos hslot, hstep]
  refine ⟨_, _, .next run trivial hnext, fun himmutable => ?_⟩
  exact himmutable.prefixes slot hslot tile
    (by simp [State.setPc, Pc.writesPrefix]) hflag

/-- Every job and every run: as long as no Pass-2 call throws nobody stores
into a published field and what was published stays; over all runs of a job
nobody ever does exactly if no Pass-2 call throws in any of them. -/
theorem published_immutable (job : Job T) (scratch : ℕ → T) :
    (∀ earlier later before state,
      Reaches (inclusiveScan job) (start job scratch) earlier before →
      Reaches (inclusiveScan job) before later state →
      (∀ index, .threw (.pass2 index) ∉ earlier ++ later) →
        Immutable job before ∧ Kept before state) ∧
    ((∀ trace state,
      Reaches (inclusiveScan job) (start job scratch) trace state →
        Immutable job state) ↔
      ∀ trace state,
        Reaches (inclusiveScan job) (start job scratch) trace state →
          ∀ index, .threw (.pass2 index) ∉ trace) := by
  refine ⟨?_, ?_, ?_⟩
  · intro earlier later before state hbefore hafter hcalm
    exact ⟨immutable_of_calm hbefore fun index hmem =>
      hcalm index (List.mem_append_left _ hmem),
      kept_of_calm hbefore hafter hcalm⟩
  · intro himmutable trace state run index hthrew
    obtain ⟨trace, state, run, hwritten⟩ := not_immutable_of_threw run hthrew
    exact hwritten (himmutable trace state run)
  · intro hcalm trace state run
    exact immutable_of_calm run (hcalm trace state run)

end Runs

/-- The middle tile has published the prefix 1 and its Pass 2 throws: while a
successor walks back to it, the catch block stores 0. -/
theorem middleThrows_overwrites :
    ∃ trace state, Reaches (inclusiveScan (threeTiles middleThrows))
        (start (threeTiles middleThrows) fun _ => 0) trace state ∧
      state.flag 1 = .prefixAvailable ∧ state.tilePrefix 1 = 1 ∧
      (state.pc 1).writesPrefix = some 1 ∧
      (∃ cursor accum, state.pc 2 = .walk 2 cursor accum) ∧
      ∃ after event, (inclusiveScan (threeTiles middleThrows)).step state
        (.slot 1) = some (after, event) ∧ after.tilePrefix 1 = 0 := by
  obtain ⟨trace, state, run, hcheck⟩ : ∃ trace state,
      Reaches (inclusiveScan (threeTiles middleThrows))
          (start (threeTiles middleThrows) fun _ => 0) trace state ∧
        (state.flag 1 == .prefixAvailable && state.tilePrefix 1 == 1 &&
          (match state.pc 1 with
            | .giveUp tile => tile == 1
            | _ => false) &&
          match state.pc 2 with
          | .walk tile _ _ => tile == 2
          | _ => false) = true :=
    reaches_of_check (inclusiveScan (threeTiles middleThrows))
      (start (threeTiles middleThrows) fun _ => 0) untilCaught
      (fun _ state => state.flag 1 == .prefixAvailable &&
        state.tilePrefix 1 == 1 &&
          (match state.pc 1 with
            | .giveUp tile => tile == 1
            | _ => false) &&
          match state.pc 2 with
          | .walk tile _ _ => tile == 2
          | _ => false) (by decide +kernel)
  simp only [Bool.and_eq_true, beq_iff_eq] at hcheck
  obtain ⟨⟨⟨hflag, hprefix⟩, hgivesUp⟩, hwalks⟩ := hcheck
  split at hgivesUp
  next tile hpc =>
    obtain rfl := eq_of_beq hgivesUp
    split at hwalks
    next other cursor accum hwalk =>
      obtain rfl := eq_of_beq hwalks
      refine ⟨trace, state, run, hflag, hprefix, by rw [hpc]; rfl,
        ⟨cursor, accum, hwalk⟩, ?_⟩
      have hslot : 1 < (threeTiles middleThrows).shape.participants := by
        decide
      refine ⟨((state.setPrefix 1 0).setFlag 1 .prefixAvailable).setPc 1
        .claim, none, ?_, ?_⟩
      · simp only [inclusiveScan, if_pos hslot, stepSlot, hpc]
        rfl
      · simp [State.setPc, State.setFlag, State.setPrefix]
    next => cases hwalks
  next => cases hgivesUp

end Citor.Lookback
