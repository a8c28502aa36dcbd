import Citor.Core.Interleaving

/-!
# Fair runs

An infinite run in which every party acts again and again unless it cannot.
The rule below proves that such a run reaches a goal: in every state some
party helps, which its own next step shows in a rank, and nobody else raises
the rank or takes the helper's turn away.
-/

namespace Citor.Interleaving

variable {State Action Event Party Rank : Type*}

/-- An infinite run from `start` by allowed steps, with moments where nothing
happens, which is weakly fair to every party. -/
structure FairRun (machine : Machine State Action Event)
    (allowed : State → Action → Prop) (owner : Action → Party)
    (start : State) where
  state : ℕ → State
  action : ℕ → Option Action
  starts : state 0 = start
  follows : ∀ time, match action time with
    | none => state (time + 1) = state time
    | some taken => allowed (state time) taken ∧
        ∃ event, machine.step (state time) taken =
          some (state (time + 1), event)
  fair : ∀ party time, ∃ later, time ≤ later ∧
    ((∃ taken, action later = some taken ∧ owner taken = party) ∨
      ∀ waiting, owner waiting = party →
        machine.step (state later) waiting = none)

variable {machine : Machine State Action Event}
variable {allowed : State → Action → Prop} {owner : Action → Party}
variable {start : State} (run : FairRun machine allowed owner start)

/-- What one moment changes: nothing, or it is an allowed step. -/
theorem FairRun.moment (time : ℕ) :
    run.action time = none ∧ run.state (time + 1) = run.state time ∨
      ∃ taken event, run.action time = some taken ∧
        allowed (run.state time) taken ∧
        machine.step (run.state time) taken =
          some (run.state (time + 1), event) := by
  have hfollows := run.follows time
  cases haction : run.action time with
  | none =>
      rw [haction] at hfollows
      exact .inl ⟨rfl, hfollows⟩
  | some taken =>
      rw [haction] at hfollows
      obtain ⟨hallowed, event, hstep⟩ := hfollows
      exact .inr ⟨taken, event, rfl, hallowed, hstep⟩

theorem FairRun.invariant (invariant : State → Prop)
    (hstart : invariant start)
    (hkeep : ∀ {before action after event}, invariant before →
      allowed before action → machine.step before action = some (after, event) →
      invariant after) (time : ℕ) : invariant (run.state time) := by
  induction time with
  | zero => rwa [run.starts]
  | succ time ih =>
      rcases run.moment time with ⟨-, hsame⟩ | ⟨_, _, -, hallowed, hstep⟩
      · rwa [hsame]
      · exact hkeep ih hallowed hstep

/-- The helpful-party rule. -/
theorem FairRun.reaches_goal [Preorder Rank] [WellFoundedLT Rank]
    (invariant goal : State → Prop) (helper : State → Party)
    (rank : State → Rank) (hstart : invariant start)
    (hkeep : ∀ {before action after event}, invariant before →
      allowed before action → machine.step before action = some (after, event) →
      invariant after)
    (henabled : ∀ {state}, invariant state → ¬ goal state →
      ∃ action, owner action = helper state ∧
        machine.step state action ≠ none)
    (hhelps : ∀ {before action after event}, invariant before → ¬ goal before →
      allowed before action → machine.step before action = some (after, event) →
      goal after ∨ rank after < rank before ∨
        owner action ≠ helper before ∧ rank after = rank before ∧
          helper after = helper before) :
    ∃ time, goal (run.state time) := by
  have hinv := run.invariant invariant hstart hkeep
  suffices hall : ∀ level time, rank (run.state time) = level →
      ∃ later, goal (run.state later) from hall _ 0 rfl
  intro level
  induction level using WellFoundedLT.induction with
  | ind level ih =>
      intro time hlevel
      by_contra hnever
      have hnot : ∀ later, ¬ goal (run.state later) :=
        fun later hgoal => hnever ⟨later, hgoal⟩
      have hlower : ∀ later, ¬ rank (run.state later) < level :=
        fun later hless => hnever (ih _ hless later rfl)
      -- rank and helper stand still from `time` on
      have hstill : ∀ wait, rank (run.state (time + wait)) = level ∧
          helper (run.state (time + wait)) = helper (run.state time) := by
        intro wait
        induction wait with
        | zero => exact ⟨hlevel, rfl⟩
        | succ wait hwait =>
            rcases run.moment (time + wait) with
              ⟨-, hsame⟩ | ⟨taken, event, -, hallowed, hstep⟩
            · rw [Nat.add_succ, hsame]
              exact hwait
            · rcases hhelps (hinv _) (hnot _) hallowed hstep with
                hgoal | hless | ⟨-, hrank, hhelper⟩
              · exact absurd hgoal (hnot _)
              · exact absurd (hwait.1 ▸ hless) (hlower _)
              · exact ⟨hrank.trans hwait.1, hhelper.trans hwait.2⟩
      obtain ⟨later, hlater, hacts⟩ := run.fair (helper (run.state time)) time
      obtain ⟨wait, rfl⟩ := Nat.exists_eq_add_of_le hlater
      obtain ⟨hrank, hhelper⟩ := hstill wait
      rcases hacts with ⟨taken, haction, howner⟩ | hdisabled
      · rcases run.moment (time + wait) with
          ⟨hnone, -⟩ | ⟨other, event, hother, hallowed, hstep⟩
        · simp [haction] at hnone
        · obtain rfl : taken = other :=
            Option.some.inj (haction.symm.trans hother)
          rcases hhelps (hinv _) (hnot _) hallowed hstep with
            hgoal | hless | ⟨hforeign, -, -⟩
          · exact hnot _ hgoal
          · exact hlower _ (hrank ▸ hless)
          · exact hforeign (howner.trans hhelper.symm)
      · obtain ⟨waiting, hwaiting, hstep⟩ := henabled (hinv _) (hnot _)
        exact hstep (hdisabled waiting (hwaiting.trans hhelper))

/-! ## Runs that do not stand still -/

section Live

/-- An infinite run from `start` by allowed actions, with moments where
nothing happens, in which some internal step follows as long as one is
enabled. -/
structure LiveRun (machine : Machine State Action Event)
    (allowed : Action → Prop) (internal : State → Action → Prop)
    (start : State) where
  state : ℕ → State
  action : ℕ → Option Action
  starts : state 0 = start
  follows : ∀ time, match action time with
    | none => state (time + 1) = state time
    | some taken => allowed taken ∧ ∃ event,
        machine.step (state time) taken = some (state (time + 1), event)
  live : ∀ time waiting, internal (state time) waiting →
    machine.step (state time) waiting ≠ none →
      ∃ later taken, time ≤ later ∧ action later = some taken ∧
        internal (state later) taken

variable {permitted : Action → Prop} {internal : State → Action → Prop}

theorem LiveRun.moment (run : LiveRun machine permitted internal start)
    (time : ℕ) :
    run.action time = none ∧ run.state (time + 1) = run.state time ∨
      ∃ taken event, run.action time = some taken ∧ permitted taken ∧
        machine.step (run.state time) taken =
          some (run.state (time + 1), event) := by
  have hfollows := run.follows time
  cases haction : run.action time with
  | none =>
      rw [haction] at hfollows
      exact .inl ⟨rfl, hfollows⟩
  | some taken =>
      rw [haction] at hfollows
      obtain ⟨hpermitted, event, hstep⟩ := hfollows
      exact .inr ⟨taken, event, rfl, hpermitted, hstep⟩

/-- Where internal steps lower a rank that nothing raises and some internal
step is enabled until the goal, the goal is reached. -/
theorem LiveRun.reaches_goal [PartialOrder Rank] [WellFoundedLT Rank]
    (run : LiveRun machine permitted internal start)
    (rank : State → Rank) (invariant goal : State → Prop)
    (hstart : invariant start)
    (hkeep : ∀ {before action after event}, invariant before →
      permitted action →
      machine.step before action = some (after, event) → invariant after)
    (henabled : ∀ {state}, invariant state → ¬ goal state →
      ∃ action, internal state action ∧ machine.step state action ≠ none)
    (hlower : ∀ {before action after event}, invariant before →
      internal before action →
      machine.step before action = some (after, event) →
      rank after < rank before)
    (hraise : ∀ {before action after event}, invariant before →
      permitted action →
      machine.step before action = some (after, event) →
      rank after ≤ rank before) :
    ∃ time, goal (run.state time) := by
  have hinv : ∀ time, invariant (run.state time) := by
    intro time
    induction time with
    | zero => rwa [run.starts]
    | succ time ih =>
        rcases run.moment time with ⟨-, hsame⟩ | ⟨_, _, -, hpermitted, hstep⟩
        · rwa [hsame]
        · exact hkeep ih hpermitted hstep
  have hfalls : ∀ time, rank (run.state (time + 1)) ≤
      rank (run.state time) := by
    intro time
    rcases run.moment time with ⟨-, hsame⟩ | ⟨_, _, -, hpermitted, hstep⟩
    · rw [hsame]
    · exact hraise (hinv time) hpermitted hstep
  suffices hall : ∀ level time, rank (run.state time) = level →
      ∃ later, goal (run.state later) from hall _ 0 rfl
  intro level
  induction level using WellFoundedLT.induction with
  | ind level ih =>
      intro time hlevel
      by_cases hgoal : goal (run.state time)
      · exact ⟨time, hgoal⟩
      obtain ⟨waiting, hwaiting, hstep⟩ := henabled (hinv time) hgoal
      obtain ⟨later, taken, hlater, haction, hinternal⟩ :=
        run.live time waiting hwaiting hstep
      rcases run.moment later with
        ⟨hnone, -⟩ | ⟨other, event, hother, -, hnext⟩
      · simp [haction] at hnone
      · obtain rfl : taken = other :=
          Option.some.inj (haction.symm.trans hother)
        have hanti : Antitone fun time => rank (run.state time) :=
          antitone_nat_of_succ_le hfalls
        have hless := (hlower (hinv later) hinternal hnext).trans_le
          (hanti hlater)
        exact ih _ (hlevel ▸ hless) (later + 1) rfl

end Live

end Citor.Interleaving
