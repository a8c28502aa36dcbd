import Citor.Core.Fairness
import Citor.Scan.LookbackThrows

/-!
# What a throwing combiner leaves behind

For every set of throwing calls an inclusive scan releases all its tiles, lets
every participant go and passes on one of the exceptions.  The serial paths
throw straight through.
-/

namespace Citor.Lookback

open Citor.Interleaving

variable {T : Type*}

/-! ## The paths of one slot -/

section Serial

variable {job : Job T} {trace : List Event} {before after : State T}
variable {event : Option Event}

/-- The invariant of a call that slot 0 runs alone, throws or not. -/
structure SerialThrowInv (job : Job T) (trace : List Event)
    (state : State T) : Prop where
  alone : ∀ slot, slot ≠ 0 → state.pc slot = .left
  pc :
    match state.pc 0 with
    | .pollToken | .serial _ _ =>
        state.outcome = none ∧ ∀ site, .threw site ∉ trace
    | .left => ∃ outcome, state.outcome = some outcome ∧
        ∀ site, .threw site ∈ trace ↔ outcome = .error site
    | _ => False

theorem serialThrowInv_slot (hinv : SerialThrowInv job trace before)
    {slot : ℕ} (hstep : stepSlot job before slot = some (after, event)) :
    SerialThrowInv job (trace ++ event.toList) after := by
  have hzero : slot = 0 := by
    by_contra hother
    simp [stepSlot, hinv.alone slot hother] at hstep
  subst hzero
  have halone : ∀ other ≠ 0, after.pc other = .left := by
    intro other hother
    rw [(stepSlot_frame hstep).1 other hother]
    exact hinv.alone other hother
  refine ⟨halone, ?_⟩
  have hpcOk := hinv.pc
  cases hpc : before.pc 0 <;> rw [hpc] at hpcOk
  case pollToken =>
    simp only [stepSlot, hpc] at hstep
    split at hstep
    all_goals obtain ⟨rfl, rfl⟩ := by simpa using hstep
    · simpa [State.return, State.setPc] using hpcOk.2
    · simpa [State.setPc] using hpcOk
  case serial =>
    simp only [stepSlot, hpc] at hstep
    repeat' split at hstep
    all_goals obtain ⟨rfl, rfl⟩ := by simpa using hstep
    · simp only [State.return, State.setPc, Function.update_self]
      refine ⟨_, rfl, fun site => ?_⟩
      simp [hpcOk.2, eq_comm]
    · simpa [State.setPc, State.write] using hpcOk
    · simpa [State.return, State.setPc] using hpcOk.2
  case left => simp [stepSlot, hpc] at hstep
  all_goals exact hpcOk.elim

theorem serialThrowInv_step {action : Action}
    (hinv : SerialThrowInv job trace before)
    (hstep : (inclusiveScan job).step before action = some (after, event)) :
    SerialThrowInv job (trace ++ event.toList) after := by
  cases action with
  | slot slot =>
      simp only [inclusiveScan] at hstep
      split at hstep
      · exact serialThrowInv_slot hinv hstep
      · simp at hstep
  | join =>
      simp only [inclusiveScan] at hstep
      split at hstep
      next hready =>
        exfalso
        obtain ⟨hnone, hall⟩ := hready
        simp only [State.allLeft, List.all_eq_true, List.mem_range] at hall
        have hleft := hall 0 job.shape.participants_pos
        have hpcOk := hinv.pc
        cases hpc : before.pc 0 <;> rw [hpc] at hpcOk hleft
        case left =>
          obtain ⟨outcome, houtcome, -⟩ := hpcOk
          simp [houtcome] at hnone
        all_goals simp [Pc.hasLeft] at hleft
      next => simp at hstep
  | requestStop =>
      obtain ⟨rfl, rfl⟩ := by simpa [inclusiveScan] using hstep
      simp only [Option.toList_none, List.append_nil]
      exact ⟨hinv.alone, hinv.pc⟩

theorem serialThrowInv_start (job : Job T) (hpath : job.shape.path ≠ .tiled)
    (scratch : ℕ → T) : SerialThrowInv job [] (start job scratch) := by
  cases hcase : job.shape.path with
  | tiled => exact absurd hcase hpath
  | empty => exact ⟨by simp [start, hcase], by simp [start, hcase]⟩
  | oversized =>
      refine ⟨?_, by simp [start, hcase]⟩
      intro slot hslot
      simp [start, hcase, hslot]
  | serial =>
      refine ⟨?_, by simp [start, hcase]⟩
      intro slot hslot
      simp [start, hcase, hslot]

theorem serialThrowInv_run {scratch : ℕ → T} {state : State T}
    (hpath : job.shape.path ≠ .tiled)
    (run : Reaches (inclusiveScan job) (start job scratch) trace state) :
    SerialThrowInv job trace state :=
  run.invariant (SerialThrowInv job) (serialThrowInv_start job hpath scratch)
    fun hinv _ hstep => serialThrowInv_step hinv hstep

theorem SerialThrowInv.exists_step {state : State T}
    (hinv : SerialThrowInv job trace state) (hrunning : state.outcome = none) :
    ∃ action after event, action ≠ .requestStop ∧
      (inclusiveScan job).step state action = some (after, event) := by
  have hzero := job.shape.participants_pos
  cases hstep : stepSlot job state 0 with
  | some next => exact ⟨.slot 0, next.1, next.2, by simp,
      by simp [inclusiveScan, hzero, hstep]⟩
  | none =>
      exfalso
      have hpcOk := hinv.pc
      rcases idle_cases hstep with hpc | ⟨tile, cursor, accum, hpc, -⟩
      · rw [hpc] at hpcOk
        obtain ⟨outcome, houtcome, -⟩ := hpcOk
        simp [hrunning] at houtcome
      · rw [hpc] at hpcOk
        exact hpcOk

end Serial

/-! ## What a caller sees -/

/-- A call whose combiner may throw: flags only rise, nobody waits forever,
and one exception comes out if any was thrown. -/
structure ThrowSafe (job : Job T) (trace : List Event) (state : State T) :
    Prop where
  upward : ∀ action after event,
    (inclusiveScan job).step state action = some (after, event) →
      ∀ tile, (state.flag tile).rank ≤ (after.flag tile).rank
  released : job.shape.path = .tiled → state.outcome ≠ none →
    ∀ tile < job.shape.numTiles, state.flag tile = .prefixAvailable
  everyoneLeft : state.outcome ≠ none →
    ∀ slot < job.shape.participants, state.pc slot = .left
  /-- An exception that comes out was thrown, by a tile or by the combine
  after the join. -/
  surfaced : ∀ site, state.outcome = some (.error site) →
    .threw site ∈ trace ∨
      (∀ other, .threw other ∉ trace) ∧ site = .total ∧
        job.throws .total = true
  rethrows : ∀ site outcome, .threw site ∈ trace →
    state.outcome = some outcome → ∃ first, outcome = .error first
  once : state.outcome ≠ none → ∀ action after event,
    (inclusiveScan job).step state action = some (after, event) →
      after.outcome = state.outcome
  enabled : state.outcome = none → ∃ action after event,
    action ≠ .requestStop ∧
      (inclusiveScan job).step state action = some (after, event)
  ends : ∀ run : LiveRun (inclusiveScan job) (fun _ => True)
      (fun _ action => action ≠ .requestStop) state,
    ∃ time, (run.state time).outcome ≠ none

section Caller

variable {job : Job T} {trace : List Event} {before after state : State T}
variable {event : Option Event}

/-- Only a tile's own steps store into its flag, and they raise it. -/
theorem ThrowInv.rises {slot : ℕ} (hinv : ThrowInv job trace before)
    (hslot : slot < job.shape.participants)
    (hstep : stepSlot job before slot = some (after, event)) (tile : ℕ) :
    (before.flag tile).rank ≤ (after.flag tile).rank := by
  have hstands := hinv.slots slot hslot
  cases hheld : (before.pc slot).tile with
  | some held =>
      have hworks := stepSlot_works hheld hstands hstep
      by_cases hsame : tile = held
      · exact hsame ▸ hworks.rises
      · rw [hworks.flags tile hsame]
  | none =>
      cases hpc : before.pc slot with
      | claim =>
          simp only [stepSlot, hpc] at hstep
          split at hstep
          all_goals
            obtain ⟨rfl, rfl⟩ := by simpa using hstep
            exact le_rfl
      | left => simp [stepSlot, hpc] at hstep
      | pollToken => exact absurd hstands (by rw [hpc]; exact id)
      | serial => exact absurd hstands (by rw [hpc]; exact id)
      | _ => simp [hpc, Pc.tile] at hheld

/-- The paths of one slot have no tiles. -/
theorem SerialThrowInv.flag_eq {slot : ℕ}
    (hinv : SerialThrowInv job trace before)
    (hstep : stepSlot job before slot = some (after, event)) :
    after.flag = before.flag := by
  have hpcOk := hinv.pc
  by_cases hzero : slot = 0
  · subst hzero
    cases hpc : before.pc 0 <;> rw [hpc] at hpcOk
    case left => simp [stepSlot, hpc] at hstep
    case pollToken =>
      simp only [stepSlot, hpc] at hstep
      split at hstep
      all_goals
        obtain ⟨rfl, rfl⟩ := by simpa using hstep
        rfl
    case serial =>
      simp only [stepSlot, hpc] at hstep
      repeat' split at hstep
      all_goals
        obtain ⟨rfl, rfl⟩ := by simpa using hstep
        rfl
    all_goals exact hpcOk.elim
  · simp [stepSlot, hinv.alone slot hzero] at hstep

/-- What holds of the slots' steps holds of every step. -/
theorem upward_of_slots
    (hslots : ∀ slot < job.shape.participants, ∀ after event,
      stepSlot job state slot = some (after, event) →
        ∀ tile, (state.flag tile).rank ≤ (after.flag tile).rank) :
    ∀ action after event,
      (inclusiveScan job).step state action = some (after, event) →
        ∀ tile, (state.flag tile).rank ≤ (after.flag tile).rank := by
  intro action after event hstep tile
  cases action with
  | slot slot =>
      simp only [inclusiveScan] at hstep
      split at hstep
      next hslot => exact hslots slot hslot after event hstep tile
      next => simp at hstep
  | join =>
      simp only [inclusiveScan] at hstep
      split at hstep
      · obtain ⟨rfl, rfl⟩ := by simpa using hstep
        exact le_rfl
      · simp at hstep
  | requestStop =>
      obtain ⟨rfl, rfl⟩ := by simpa [inclusiveScan] using hstep
      exact le_rfl

/-- Once everybody has left and the call has ended, nothing moves. -/
theorem outcome_of_left
    (hleft : ∀ slot < job.shape.participants, state.pc slot = .left)
    (hended : state.outcome ≠ none) {action : Action} {event : Option Event}
    (hstep : (inclusiveScan job).step state action = some (after, event)) :
    after.outcome = state.outcome := by
  cases action with
  | slot slot =>
      simp only [inclusiveScan] at hstep
      split at hstep
      next hslot => simp [stepSlot, hleft slot hslot] at hstep
      next => simp at hstep
  | join => simp [inclusiveScan, hended] at hstep
  | requestStop =>
      obtain ⟨rfl, rfl⟩ := by simpa [inclusiveScan] using hstep
      rfl

/-- Steps use up the work and something can always be done: every run that
does not stand still ends the call. -/
theorem ends_of_invariant (invariant : State T → Prop)
    (hkeep : ∀ {before action after event}, invariant before →
      (inclusiveScan job).step before action = some (after, event) →
        invariant after)
    (hprogress : ∀ {state}, invariant state → state.outcome = none →
      ∃ action after event, action ≠ .requestStop ∧
        (inclusiveScan job).step state action = some (after, event))
    (hstate : invariant state)
    (run : LiveRun (inclusiveScan job) (fun _ => True)
      (fun _ action => action ≠ .requestStop) state) :
    ∃ time, (run.state time).outcome ≠ none := by
  refine run.reaches_goal (State.remaining job) invariant
    (fun state => state.outcome ≠ none) hstate
    (fun hinv _ hstep => hkeep hinv hstep) ?_ ?_ ?_
  · intro state hinv hrunning
    obtain ⟨action, after, event, haction, hstep⟩ :=
      hprogress hinv (not_not.mp hrunning)
    exact ⟨action, haction, by simp [hstep]⟩
  · intro before action after event _ haction hstep
    exact remaining_lt haction hstep
  · intro before action after event _ _ hstep
    by_cases haction : action = .requestStop
    · subst haction
      obtain ⟨rfl, rfl⟩ := by simpa [inclusiveScan] using hstep
      exact le_rfl
    · exact (remaining_lt haction hstep).le

theorem ThrowInv.left_of_outcome (hinv : ThrowInv job trace state)
    (hended : state.outcome ≠ none) {slot : ℕ}
    (hslot : slot < job.shape.participants) : state.pc slot = .left := by
  obtain ⟨outcome, houtcome⟩ := Option.ne_none_iff_exists'.mp hended
  have hall := (hinv.outcome outcome houtcome).1
  have hleft : (state.pc slot).hasLeft = true := by
    simp only [State.allLeft, List.all_eq_true, List.mem_range] at hall
    exact hall slot hslot
  cases hpc : state.pc slot <;> simp_all [Pc.hasLeft]

/-- At the end every exception of the trace has been looked at by its catch
block. -/
theorem ThrowInv.captured_of_outcome (hinv : ThrowInv job trace state)
    (hended : state.outcome ≠ none) {site : Site}
    (hthrew : .threw site ∈ trace) : state.firstException ≠ none := by
  rcases hinv.captured site hthrew with hsome | ⟨slot, hslot, other, tile, hpc⟩
  · exact hsome
  · rw [hinv.left_of_outcome hended hslot] at hpc
    cases hpc

theorem ThrowInv.safe (hinv : ThrowInv job trace state) :
    ThrowSafe job trace state where
  upward := upward_of_slots fun _ hslot _ _ hstep => hinv.rises hslot hstep
  released := by
    intro _ hended tile htile
    obtain ⟨cluster, hcluster, howns⟩ := job.shape.exists_owner htile
    obtain ⟨slot, hslot, hid⟩ := job.shape.clusters.occupied cluster hcluster
    have hdrained := hinv.drained slot hslot
      (by rw [hinv.left_of_outcome hended hslot]; rfl)
    rw [hid] at hdrained
    refine hinv.released tile
      ⟨cluster, hcluster, howns, howns.2.trans_le hdrained⟩ ?_
    intro other hother
    simp [hinv.left_of_outcome hended hother, Pc.tile]
  everyoneLeft hended slot hslot := hinv.left_of_outcome hended hslot
  surfaced := by
    intro site houtcome
    have hended : state.outcome ≠ none := by simp [houtcome]
    have hends := (hinv.outcome _ houtcome).2
    cases hfirst : state.firstException with
    | some first =>
        rw [hfirst] at hends
        cases hends
        exact .inl (hinv.thrown site hfirst)
    | none =>
        rw [hfirst] at hends
        obtain ⟨htotal, hthrows⟩ := hends site rfl
        refine .inr ⟨fun other hthrew => ?_, htotal, hthrows⟩
        exact hinv.captured_of_outcome hended hthrew hfirst
  rethrows := by
    intro site outcome hthrew houtcome
    have hended : state.outcome ≠ none := by simp [houtcome]
    have hends := (hinv.outcome outcome houtcome).2
    cases hfirst : state.firstException with
    | some first =>
        rw [hfirst] at hends
        exact ⟨first, hends⟩
    | none => exact absurd hfirst (hinv.captured_of_outcome hended hthrew)
  once hended _ _ _ hstep :=
    outcome_of_left (fun _ hslot => hinv.left_of_outcome hended hslot) hended
      hstep
  enabled hrunning := hinv.progressing.exists_step hrunning
  ends := by
    refine ends_of_invariant (fun state => ∃ trace, ThrowInv job trace state)
      ?_ ?_ ⟨trace, hinv⟩
    · rintro before action after event ⟨trace, hinv⟩ hstep
      exact ⟨_, throwInv_step hinv hstep⟩
    · rintro state ⟨trace, hinv⟩ hrunning
      exact hinv.progressing.exists_step hrunning

theorem SerialThrowInv.left_of_outcome
    (hinv : SerialThrowInv job trace state) (hended : state.outcome ≠ none)
    (slot : ℕ) : state.pc slot = .left := by
  by_cases hzero : slot = 0
  · subst hzero
    have hpcOk := hinv.pc
    cases hpc : state.pc 0 <;> rw [hpc] at hpcOk
    case pollToken => exact absurd hpcOk.1 hended
    case serial => exact absurd hpcOk.1 hended
    all_goals exact hpcOk.elim
  · exact hinv.alone slot hzero

/-- The outcome is the one exception of the trace, if there is one. -/
theorem SerialThrowInv.threw_iff (hinv : SerialThrowInv job trace state)
    {outcome : Except Site T} (houtcome : state.outcome = some outcome)
    (site : Site) : .threw site ∈ trace ↔ outcome = .error site := by
  have hpcOk := hinv.pc
  rw [hinv.left_of_outcome (by simp [houtcome]) 0] at hpcOk
  obtain ⟨returned, hreturned, hthrown⟩ := hpcOk
  obtain rfl : returned = outcome := by simpa [houtcome] using hreturned.symm
  exact hthrown site

theorem SerialThrowInv.safe (hinv : SerialThrowInv job trace state)
    (hpath : job.shape.path ≠ .tiled) : ThrowSafe job trace state where
  upward := by
    refine upward_of_slots fun slot _ after event hstep tile => ?_
    rw [hinv.flag_eq hstep]
  released htiled := absurd htiled hpath
  everyoneLeft hended slot _ := hinv.left_of_outcome hended slot
  surfaced site houtcome := .inl ((hinv.threw_iff houtcome site).2 rfl)
  rethrows site _ hthrew houtcome :=
    ⟨site, (hinv.threw_iff houtcome site).1 hthrew⟩
  once hended _ _ _ hstep :=
    outcome_of_left (fun slot _ => hinv.left_of_outcome hended slot) hended
      hstep
  enabled := hinv.exists_step
  ends := by
    refine ends_of_invariant
      (fun state => ∃ trace, SerialThrowInv job trace state) ?_ ?_ ⟨trace, hinv⟩
    · rintro before action after event ⟨trace, hinv⟩ hstep
      exact ⟨_, serialThrowInv_step hinv hstep⟩
    · rintro state ⟨trace, hinv⟩ hrunning
      exact hinv.exists_step hrunning

/-- For every shape, combiner, set of throwing calls and interleaving. -/
theorem throwSafe_of_run (job : Job T) (scratch : ℕ → T)
    (run : Reaches (inclusiveScan job) (start job scratch) trace state) :
    ThrowSafe job trace state := by
  by_cases hpath : job.shape.path = .tiled
  · exact (throwInv_run hpath run).safe
  · exact (serialThrowInv_run hpath run).safe hpath

end Caller

/-! ## A throwing call -/

theorem threeTiles_participants : 0 < 3 := by decide

/-- Three elements of 64 KiB on three participants: three tiles. -/
def threeTiles (throws : Site → Bool) : Job ℕ where
  shape :=
    { n := 3
      tileElems := tileElemsFor 3 65536 64 3
      participants := 3
      participants_pos := threeTiles_participants
      clusters := .single threeTiles_participants
      crossArena := false
      inPlace := false }
  identity := 0
  prefixFn := fun left right => left + right
  input := fun index => index + 1
  blank := 0
  throws := throws

/-- Pass 2 of the middle tile throws. -/
def middleThrows (site : Site) : Bool :=
  site == .pass2 1

/-- Every slot claims a tile; the middle one has published its prefix when its
Pass 2 throws, and the last one walks back. -/
def untilCaught : List Action :=
  List.flatten
    [[.slot 0, .slot 1, .slot 2], List.replicate 5 (.slot 0),
      List.replicate 4 (.slot 2), List.replicate 9 (.slot 1)]

/-- The call has rethrown the failure of a site. -/
def rethrew (site : Site) : Option (Except Site ℕ) → Bool
  | some (.error thrown) => thrown == site
  | _ => false

theorem eq_error_of_rethrew {site : Site} {outcome : Option (Except Site ℕ)}
    (hrethrew : rethrew site outcome = true) :
    outcome = some (.error site) := by
  cases outcome with
  | none => simp [rethrew] at hrethrew
  | some result =>
      cases result with
      | ok value => simp [rethrew] at hrethrew
      | error thrown =>
          have hsame : thrown = site := eq_of_beq hrethrew
          rw [hsame]

theorem throwSafe_middleThrows :
    ∃ trace state,
      state.outcome = some (Except.error (.pass2 1) : Except Site ℕ) ∧
        ThrowSafe (threeTiles middleThrows) trace state := by
  obtain ⟨trace, state, run, hended⟩ : ∃ trace state,
      Reaches (inclusiveScan (threeTiles middleThrows))
          (start (threeTiles middleThrows) fun _ => 0) trace state ∧
        rethrew (.pass2 1) state.outcome = true :=
    reaches_of_check (inclusiveScan (threeTiles middleThrows))
      (start (threeTiles middleThrows) fun _ => 0)
      (untilCaught ++ List.flatten
        [List.replicate 2 (.slot 1), [.slot 0], List.replicate 6 (.slot 2),
          [.join]])
      (fun _ state => rethrew (.pass2 1) state.outcome) (by decide +kernel)
  exact ⟨trace, state, eq_error_of_rethrew hended, throwSafe_of_run _ _ run⟩

end Citor.Lookback
