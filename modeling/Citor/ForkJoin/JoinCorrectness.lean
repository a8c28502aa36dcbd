import Citor.ForkJoin.JoinSteps

/-!
# Fork-join calls join

Every run keeps the invariant, and the frame that returns from a call knows
that all its tasks have retired.
-/

namespace Citor.ForkJoin

open Citor.Interleaving Citor.Census Citor.BlockPartition

variable {Exn : Type}
variable {participants : ℕ} {trace : List (Event Exn)}
variable {before after : State Exn} {event : Option (Event Exn)}
variable {slot : ℕ} {rest : List (Frame Exn)}

/-! ## One step -/

theorem inv_advanceTask (hinv : Inv participants trace before)
    (hslot : slot < participants) {frame : Frame Exn}
    (htop : before.frames slot = frame :: rest)
    (hstep : advanceTask before slot rest frame = some (after, event)) :
    Inv participants (trace ++ event.toList) after := by
  unfold advanceTask at hstep
  split at hstep
  case h_1 task via =>
    split at hstep
    next hcancelled =>
      simp only [Option.some.injEq, Prod.mk.injEq] at hstep
      obtain ⟨rfl, rfl⟩ := hstep
      exact inv_skip hinv hslot (.inl rfl) htop
        (.inl (hinv.ledger.cancelled task.call hcancelled))
    · simp only [Option.some.injEq, Prod.mk.injEq] at hstep
      obtain ⟨rfl, rfl⟩ := hstep
      exact inv_gate hinv hslot htop
  case h_2 task via =>
    split at hstep
    next hrequested =>
      simp only [Option.some.injEq, Prod.mk.injEq] at hstep
      obtain ⟨rfl, rfl⟩ := hstep
      exact inv_skip hinv hslot (.inr rfl) htop (.inr hrequested)
    · simp only [Option.some.injEq, Prod.mk.injEq] at hstep
      obtain ⟨rfl, rfl⟩ := hstep
      exact inv_run hinv hslot htop _
  case h_3 task via result =>
    simp only [Option.some.injEq, Prod.mk.injEq] at hstep
    obtain ⟨rfl, rfl⟩ := hstep
    refine inv_end hinv hslot htop ?_
    cases via <;> cases result <;> simp
  case h_4 task via token next =>
    simp only [Option.some.injEq, Prod.mk.injEq] at hstep
    obtain ⟨rfl, rfl⟩ := hstep
    exact inv_bodyPoll hinv hslot htop _
  case h_5 task via token count child next =>
    simp only [Option.some.injEq, Prod.mk.injEq] at hstep
    obtain ⟨rfl, rfl⟩ := hstep
    obtain ⟨-, hknown, hok⟩ := hinv.top htop
    refine hinv.openCall _ token count child hslot
      [.body task via (.fork token count child next)] [.wait task via next]
      htop ?_ ?_ ?_
    · constructor <;> intro other <;> simp
    · simp
    · simpa using ⟨hknown, hok⟩
  case h_6 task via thrown =>
    simp only [Option.some.injEq, Prod.mk.injEq] at hstep
    obtain ⟨rfl, rfl⟩ := hstep
    exact inv_capture hinv hslot htop
  case h_7 task via =>
    simp only [Option.some.injEq, Prod.mk.injEq] at hstep
    obtain ⟨rfl, rfl⟩ := hstep
    exact inv_cancel hinv hslot htop
  case h_8 task via escaping =>
    simp only [Option.some.injEq, Prod.mk.injEq] at hstep
    obtain ⟨rfl, rfl⟩ := hstep
    exact inv_retire hinv hslot htop
  case h_9 => simp at hstep

theorem inv_advanceCall (hinv : Inv participants trace before)
    (hslot : slot < participants) {frame : Frame Exn}
    (htop : before.frames slot = frame :: rest)
    (hstep : advanceCall participants before slot rest frame =
      some (after, event)) :
    Inv participants (trace ++ event.toList) after := by
  unfold advanceCall at hstep
  split at hstep
  case h_1 call next count =>
    split at hstep
    next hnext =>
      simp only [Option.some.injEq, Prod.mk.injEq] at hstep
      obtain ⟨rfl, rfl⟩ := hstep
      exact inv_push hinv hslot htop hnext
    next hnext =>
      split at hstep
      next hkind =>
        simp only [Option.some.injEq, Prod.mk.injEq] at hstep
        obtain ⟨rfl, rfl⟩ := hstep
        exact inv_tail hinv hslot htop hnext hkind
      next hkind =>
        simp only [Option.some.injEq, Prod.mk.injEq] at hstep
        obtain ⟨rfl, rfl⟩ := hstep
        obtain ⟨-, hknown, -⟩ := hinv.top htop
        refine (inv_publish hinv hslot htop hnext hkind).workers _ ?_
        intro worker notified hworker
        obtain rfl : call = notified := by simpa using hworker
        exact hknown
      · simp at hstep
  case h_2 call =>
    split at hstep
    · simp only [Option.some.injEq, Prod.mk.injEq] at hstep
      obtain ⟨rfl, rfl⟩ := hstep
      exact inv_join hinv hslot htop
    · simp at hstep
  case h_3 call =>
    simp only [Option.bind_eq_bind, Option.pure_def,
      Option.bind_eq_some_iff, Option.some.injEq, Prod.mk.injEq] at hstep
    obtain ⟨below, hresume, rfl, rfl⟩ := hstep
    exact inv_rethrow hinv hslot htop hresume
  case h_4 call result =>
    simp only [Option.bind_eq_bind, Option.pure_def,
      Option.bind_eq_some_iff, Option.some.injEq, Prod.mk.injEq] at hstep
    obtain ⟨below, hresume, rfl, rfl⟩ := hstep
    exact inv_ret hinv hslot htop hresume
  case h_5 => simp at hstep

theorem inv_advanceDrain (hinv : Inv participants trace before)
    (hslot : slot < participants) {call : ℕ} {role : Role} {pc : DrainPc}
    {lastVictim : Option ℕ}
    (htop : before.frames slot = .drain call role pc lastVictim :: rest)
    (hstep : advanceDrain before slot call role pc lastVictim rest =
      some (after, event)) :
    Inv participants (trace ++ event.toList) after := by
  unfold advanceDrain at hstep
  split at hstep
  case h_1 =>
    split at hstep
    next heffective =>
      have hleave := inv_drained hinv hslot htop heffective
      cases role <;> simp only [Option.some.injEq, Prod.mk.injEq] at hstep <;>
        obtain ⟨rfl, rfl⟩ := hstep
      case nested => exact hleave [.rethrow call] (.inl ⟨rfl, rfl⟩)
      case producer => exact hleave [.join call] (.inr (.inl ⟨rfl, rfl⟩))
      case worker =>
        refine (hleave [] (.inr (.inr ⟨rfl, rfl⟩))).workers _ ?_
        intro other notified hother
        by_cases hsame : other = slot
        · subst hsame
          simp at hother
        · rw [Function.update_of_ne hsame] at hother
          exact hinv.notified other notified hother
    · simp only [Option.some.injEq, Prod.mk.injEq] at hstep
      obtain ⟨rfl, rfl⟩ := hstep
      exact inv_drainOn hinv hslot htop
  case h_2 =>
    split at hstep
    next task hlast =>
      simp only [Option.some.injEq, Prod.mk.injEq] at hstep
      obtain ⟨rfl, rfl⟩ := hstep
      have htaken : (before.deques slot).Perm
          ((before.deques slot).dropLast ++ [task]) := by
        rw [List.dropLast_append_getLast? task hlast]
      refine inv_take hinv hslot hslot htop htaken ?_
      split
      next hown => exact .inl ⟨rfl, hown⟩
      · exact .inr rfl
    · simp only [Option.some.injEq, Prod.mk.injEq] at hstep
      obtain ⟨rfl, rfl⟩ := hstep
      exact inv_drainOn hinv hslot htop
  all_goals simp at hstep

/-- The oldest task of a victim's deque. -/
theorem perm_of_head {tasks others : List Task} {task : Task}
    (hdeque : tasks = task :: others) :
    tasks.Perm (others ++ [task]) := by
  rw [hdeque]
  exact (List.perm_append_singleton task others).symm

theorem inv_probeVictim (hinv : Inv participants trace before)
    (hslot : slot < participants) {victim : ℕ} {hit : Bool}
    (hstep : probeVictim participants before slot victim hit =
      some (after, event)) :
    Inv participants (trace ++ event.toList) after := by
  unfold probeVictim at hstep
  split at hstep
  case h_1 call role lastVictim rest htop =>
    split at hstep
    next hvictim =>
      split at hstep
      · simp only [Option.some.injEq, Prod.mk.injEq] at hstep
        obtain ⟨rfl, rfl⟩ := hstep
        exact inv_drainOn hinv hslot htop
      · simp at hstep
      next task others hdeque =>
        simp only [Option.some.injEq, Prod.mk.injEq] at hstep
        obtain ⟨rfl, rfl⟩ := hstep
        exact inv_take hinv hslot hvictim.2 htop (perm_of_head hdeque)
          (.inr rfl)
    · simp at hstep
  case h_2 call role lastVictim rest htop =>
    split at hstep
    next hvictim =>
      split at hstep
      · simp only [Option.some.injEq, Prod.mk.injEq] at hstep
        obtain ⟨rfl, rfl⟩ := hstep
        exact inv_drainOn hinv hslot htop
      · simp at hstep
      next task others hdeque =>
        simp only [Option.some.injEq, Prod.mk.injEq] at hstep
        obtain ⟨rfl, rfl⟩ := hstep
        exact inv_take hinv hslot hvictim.1 htop (perm_of_head hdeque)
          (.inr rfl)
    · simp at hstep
  case h_3 => simp at hstep

theorem inv_step (hinv : Inv participants trace before) {action : Action Exn}
    (hstep : (forkJoin Exn participants).step before action =
      some (after, event)) :
    Inv participants (trace ++ event.toList) after := by
  change step participants before action = some (after, event) at hstep
  have hempty : Balanced ([] : List (Frame Exn)) [] [] []
      (none : Option (Event Exn)) := by
    constructor <;> intro other <;> simp
  cases action with
  | start token count child =>
      simp only [step] at hstep
      split at hstep
      next hframes =>
        split at hstep
        next hpos =>
          simp only [Option.some.injEq, Prod.mk.injEq] at hstep
          obtain ⟨rfl, rfl⟩ := hstep
          exact hinv.openCall false token count child hpos [] [] hframes
            hempty (by simp) (by simp)
        · simp at hstep
      · simp at hstep
  | share slot body =>
      simp only [step] at hstep
      split at hstep
      next hframes =>
        split at hstep
        next hslot =>
          simp only [Option.some.injEq, Prod.mk.injEq] at hstep
          obtain ⟨rfl, rfl⟩ := hstep
          exact hinv.openCall true none 1 (fun _ => body) hslot [] [] hframes
            hempty (by simp) (by simp)
        · simp at hstep
      · simp at hstep
  | advance slot =>
      simp only [step] at hstep
      split at hstep
      next hslot =>
        split at hstep
        · simp at hstep
        next call role pc lastVictim rest htop =>
          exact inv_advanceDrain hinv hslot htop hstep
        next frame rest htop =>
          rcases Option.or_eq_some_iff.1 hstep with htask | ⟨-, hcall⟩
          · exact inv_advanceTask hinv hslot htop htask
          · exact inv_advanceCall hinv hslot htop hcall
      · simp at hstep
  | steal slot victim hit =>
      simp only [step] at hstep
      split at hstep
      next hslot => exact inv_probeVictim hinv hslot hstep
      · simp at hstep
  | wake slot =>
      simp only [step] at hstep
      split at hstep
      next call hframes hnotified =>
        split at hstep
        next hslot =>
          simp only [Option.some.injEq, Prod.mk.injEq] at hstep
          obtain ⟨rfl, rfl⟩ := hstep
          refine (inv_wake hinv hslot.1 hframes hnotified).workers _ ?_
          intro other notified hother
          by_cases hsame : other = slot
          · subst hsame
            simp at hother
          · rw [Function.update_of_ne hsame] at hother
            exact hinv.notified other notified hother
        · simp at hstep
      · simp at hstep
  | stop token =>
      simp only [step, Option.some.injEq, Prod.mk.injEq] at hstep
      obtain ⟨rfl, rfl⟩ := hstep
      exact inv_stop hinv token

/-! ## Runs -/

theorem inv_start (participants : ℕ) (stopped : ℕ → Bool) :
    Inv participants [] (start Exn stopped) := by
  have hzero : ∀ frameWeight taskWeight,
      (start Exn stopped).total participants frameWeight taskWeight = 0 := by
    intro frameWeight taskWeight
    simp [State.total, census, start]
  exact
    { places :=
        { fresh := fun _ _ => rfl
          shaped := by simp [start, Call.unused]
          placed := fun task => by
            rw [hzero]
            simp [State.born, start, Call.unused]
          heldBack := fun task => by
            rw [hzero]
            simp [State.born, start, Call.unused]
          running := fun task => by
            rw [hzero]
            simp
          owned := fun call => by
            rw [hzero]
            simp [start]
          frames := by simp [start]
          tasks := by simp [start] }
      ledger :=
        { pending := by simp [start, Call.unused, Call.deferred, retiredBy]
          own := by simp [start, Call.unused, retiredBy]
          counted := by simp
          skips := by simp
          cancelled := by simp [start, Call.unused]
          captured := by simp [start, Call.unused]
          direct := by simp [start, Call.unused]
          thrown := by simp }
      notified := by simp [start] }

theorem inv_run_of_reaches {stopped : ℕ → Bool} {state : State Exn}
    (run : Reaches (forkJoin Exn participants) (start Exn stopped) trace
      state) : Inv participants trace state :=
  Run.invariant (Inv participants) (inv_start participants stopped)
    (fun hinv _ hstep => inv_step hinv hstep) run

/-- Only a frame that is done with its call returns from it. -/
theorem returned_top {action : Action Exn} {call : ℕ} {result : Option Exn}
    (hstep : (forkJoin Exn participants).step before action =
      some (after, some (.returned call result))) :
    ∃ slot rest, slot < participants ∧
      (before.frames slot = .rethrow call :: rest ∧
          result = (before.calls call).firstException ∨
        before.frames slot = .ret call result :: rest) := by
  change step participants before action = _ at hstep
  cases action with
  | start token count child =>
      simp only [step] at hstep
      split at hstep <;> (try split at hstep) <;> simp at hstep
  | share slot body =>
      simp only [step] at hstep
      split at hstep <;> (try split at hstep) <;> simp at hstep
  | steal slot victim hit =>
      simp only [step, probeVictim] at hstep
      repeat' split at hstep
      all_goals simp at hstep
  | wake slot =>
      simp only [step] at hstep
      repeat' split at hstep
      all_goals simp at hstep
  | stop token => simp [step] at hstep
  | advance slot =>
      simp only [step] at hstep
      split at hstep
      next hslot =>
        split at hstep
        · simp at hstep
        · simp only [advanceDrain] at hstep
          repeat' split at hstep
          all_goals simp at hstep
        next frame rest hframe htop =>
          rcases Option.or_eq_some_iff.1 hstep with htask | ⟨-, hcall⟩
          · unfold advanceTask at htask
            repeat' split at htask
            all_goals simp at htask
          · refine ⟨slot, rest, hslot, ?_⟩
            unfold advanceCall at hcall
            split at hcall
            · repeat' split at hcall
              all_goals simp at hcall
            · split at hcall <;> simp at hcall
            · simp only [Option.bind_eq_bind, Option.pure_def,
                Option.bind_eq_some_iff, Option.some.injEq, Prod.mk.injEq,
                Event.returned.injEq] at hcall
              obtain ⟨below, -, -, rfl, rfl⟩ := hcall
              exact .inl ⟨htop, rfl⟩
            · simp only [Option.bind_eq_bind, Option.pure_def,
                Option.bind_eq_some_iff, Option.some.injEq, Prod.mk.injEq,
                Event.returned.injEq] at hcall
              obtain ⟨below, -, -, rfl, rfl⟩ := hcall
              exact .inr htop
            · simp at hcall
      · simp at hstep

/-! ## The join -/

/-- What holds when a call returns `result`. -/
structure Joined (trace : List (Event Exn)) (state : State Exn) (call : ℕ)
    (result : Option Exn) : Prop where
  retired : ∀ index < (state.calls call).count,
    retiredCount trace ⟨call, index⟩ = 1
  /-- No body of the call is still running. -/
  ended : ∀ index < (state.calls call).count,
    endedCount trace ⟨call, index⟩ = ranCount trace ⟨call, index⟩
  ran : ¬ Threw trace call → state.stopRequested call = false →
    ∀ index < (state.calls call).count, ranCount trace ⟨call, index⟩ = 1
  /-- The call throws if and only if one of its bodies did. -/
  rethrown : result.isSome ↔ Threw trace call
  /-- It throws what one of its bodies threw. -/
  captured : ∀ thrown, result = some thrown → Throws trace call thrown

/-- A retired task is nowhere any more: it was run to the end or skipped. -/
theorem Places.gone {state : State Exn}
    (hplaces : Places participants trace state) {task : Task}
    (hretired : Retired trace task) :
    census participants (Frame.places task) state.frames = 0 ∧
      retiredCount trace task = 1 ∧
      endedCount trace task = ranCount trace task ∧
      ranCount trace task + skippedCount trace task = 1 := by
  have hcount := hretired.count
  have hplaced := hplaces.placed task
  have hheld := hplaces.heldBack task
  have hrunning := hplaces.running task
  have hback := census_mono participants (Frame.holdsBack_le task) state.frames
  have hruns := census_mono participants (Frame.runs_le task) state.frames
  have hborn : state.born task ≤ 1 := by
    unfold State.born
    split <;> omega
  simp only [State.total, census_zero] at hplaced hheld hrunning
  omega

/-- The frame that returns from a call has everything of the call behind it. -/
theorem Inv.returning (hinv : Inv participants trace before)
    {action : Action Exn} {call : ℕ} {result : Option Exn}
    (hstep : (forkJoin Exn participants).step before action =
      some (after, some (.returned call result))) :
    AllRetired trace (before.calls call) call ∧
      returnedCount trace call = 0 ∧
      (∀ thrown, result = some thrown → Throws trace call thrown) ∧
      ((before.calls call).firstException.isSome → result.isSome) ∧
      ∀ task, task.call = call → Retired trace task →
        0 < before.total participants (Frame.throws task) (fun _ => 0) →
        result.isSome := by
  obtain ⟨slot, rest, hslot, htop⟩ := returned_top hstep
  obtain ⟨frame, hframe, howns, hplaces, hthrows, hfacts⟩ :
      ∃ frame, frame ∈ before.frames slot ∧ frame.owns call = 1 ∧
        (∀ task, frame.places task = 0) ∧
        (∀ task, 0 < frame.throws task → result.isSome) ∧
        AllRetired trace (before.calls call) call ∧
        (∀ thrown, result = some thrown → Throws trace call thrown) ∧
        ((before.calls call).firstException.isSome → result.isSome) := by
    rcases htop with ⟨htop, hresult⟩ | htop
    · obtain ⟨hmem, -, -, hall⟩ := hinv.top htop
      refine ⟨_, hmem, by simp, by simp, by simp, hall, ?_, by simp [hresult]⟩
      intro thrown hthrown
      exact hinv.ledger.captured call thrown (hresult ▸ hthrown)
    · obtain ⟨hmem, -, hkind, hall, hcaptured⟩ := hinv.top htop
      refine ⟨_, hmem, by simp, by simp, ?_, hall, hcaptured, ?_⟩
      · cases result <;> simp
      · have hnone := hinv.ledger.direct call hkind
        simp [hnone]
  have hreturned := hinv.places.unreturned hslot hframe
    (show 0 < frame.owns call by omega)
  refine ⟨hfacts.1, hreturned, hfacts.2.1, hfacts.2.2, ?_⟩
  rintro task rfl hretired hunderway
  apply hthrows task
  -- no other frame has the task or the call, so the exception is here
  have hgone := (hinv.places.gone hretired).1
  have howned := hinv.places.owned task.call
  have hlight := census_le_of_le hslot (Frame.throws_le task) hframe
  rw [census_add] at hlight
  have hnone := hplaces task
  simp only [State.total, census_zero] at howned hunderway
  split at howned <;> omega

theorem Inv.joined (hinv : Inv participants trace before) {action : Action Exn}
    {call : ℕ} {result : Option Exn}
    (hstep : (forkJoin Exn participants).step before action =
      some (after, some (.returned call result))) :
    Joined trace before call result := by
  obtain ⟨hall, hreturned, hcaptured, hstored, hunderway⟩ :=
    hinv.returning hstep
  have hgone := fun index hindex => hinv.places.gone (hall index hindex)
  exact
    { retired := fun index hindex => (hgone index hindex).2.1
      ended := fun index hindex => (hgone index hindex).2.2.1
      ran := by
        intro hthrew hrequested index hindex
        have hranOrSkipped := (hgone index hindex).2.2.2
        by_contra hran
        have hskipped : 0 < skippedCount trace ⟨call, index⟩ := by omega
        rcases hinv.ledger.skips _ (skippedCount_pos hskipped) with
          hthrown | hstopped
        · exact hthrew hthrown
        · exact Bool.false_ne_true (hrequested.symm.trans hstopped)
      rethrown := by
        constructor
        · intro hsome
          obtain ⟨thrown, hresult⟩ := Option.isSome_iff_exists.1 hsome
          exact ⟨thrown, hcaptured thrown hresult⟩
        · rintro ⟨thrown, index, hevent⟩
          have hindex := hinv.places.index_lt_of_ended hevent
          rcases hinv.ledger.thrown _ thrown hevent hreturned with
            hsome | hflying
          · exact hstored hsome
          · exact hunderway _ rfl (hall index hindex) hflying
      captured := hcaptured }

/-- A nested `parallelFor` that returns without a throw has run every index of
its range in exactly one task, whose body is `fn` on the block of the index. -/
theorem nestedParallelFor_joins {stopped : ℕ → Bool} {state : State Exn}
    (run : Reaches (forkJoin Exn participants) (start Exn stopped) trace state)
    {first last chunkHint call index : ℕ} {token : Option ℕ}
    {fn : ℕ → ℕ → Prog Exn} {next : Option Exn → Prog Exn}
    {action : Action Exn}
    (hmany : 1 < ceilDiv (last - first)
      (nestedChunk participants (last - first) chunkHint))
    (hcall : nestedParallelFor participants first last chunkHint false none
        token fn =
      .fork (state.calls call).token (state.calls call).count
        (state.calls call).child next)
    (hreturn : (forkJoin Exn participants).step state action =
      some (after, some (.returned call none)))
    (hfirst : first ≤ index) (hlast : index < last) :
    let chunk := nestedChunk participants (last - first) chunkHint
    ∃! block, (block < (state.calls call).count ∧
        blockLo first chunk block ≤ index ∧
          index < blockHi first last chunk block) ∧
      (state.calls call).child block =
        fn (blockLo first chunk block) (blockHi first last chunk block) ∧
      ranCount trace ⟨call, block⟩ = 1 := by
  intro chunk
  have hjoined := (inv_run_of_reaches run).joined hreturn
  rw [nestedParallelFor_forks none token fn hmany, Prog.fork.injEq] at hcall
  obtain ⟨htoken, hcount, hchild, -⟩ := hcall
  have hthrew : ¬ Threw trace call := by
    rw [← hjoined.rethrown]
    exact Bool.false_ne_true
  have hcontinues : state.stopRequested call = false := by
    rw [State.stopRequested, ← htoken]
  rw [← hchild, ← hcount]
  obtain ⟨block, hblock, hunique⟩ :=
    nestedParallelFor_splits participants chunkHint hfirst hlast
  refine ⟨block, ⟨hblock, ?_, ?_⟩, fun other hother => hunique other hother.1⟩
  · have hnonempty : blockLo first chunk block < blockHi first last chunk block :=
      hblock.2.1.trans_lt hblock.2.2
    simp only [nestedBody, Prog.unlessStopped]
    exact if_pos hnonempty
  · exact hjoined.ran hthrew hcontinues block (hcount ▸ hblock.1)

/-- Join correctness of everything that happened up to a state. -/
structure JoinCorrect (participants : ℕ) (trace : List (Event Exn))
    (state : State Exn) : Prop where
  /-- The two counters together say how many of the tasks that go through the
  deque have not retired. -/
  pending : ∀ call,
    (state.calls call).pendingTasks - (state.calls call).ownPending =
      (unretired trace (state.calls call) call).card
  /-- Each of them counts the retirements of its own kind. -/
  shared : ∀ call, (state.calls call).pendingTasks =
    (state.calls call).deferred - retiredBy trace .shared call
  own : ∀ call, (state.calls call).ownPending = retiredBy trace .own call
  counted : ∀ task via, .retired task via ∈ trace →
    task.index < (state.calls task.call).deferred → via = .own ∨ via = .shared
  retiredOnce : ∀ task, retiredCount trace task ≤ 1
  /-- After its pushes a call's unretired tasks are in a deque or in the hands
  of the one slot that runs them. -/
  located : ∀ call,
    (∀ slot next count, .push call next count ∉ state.frames slot) →
    ∀ index ∈ unretired trace (state.calls call) call,
      ∃ slot < participants, ⟨call, index⟩ ∈ state.deques slot ∨
        ∃ frame ∈ state.frames slot, frame.task? = some ⟨call, index⟩
  ranOnce : ∀ task, ranCount trace task ≤ 1
  returnedOnce : ∀ call, returnedCount trace call ≤ 1
  joined : ∀ action after call result,
    (forkJoin Exn participants).step state action =
      some (after, some (.returned call result)) →
    Joined trace state call result

theorem Inv.located {state : State Exn} (hinv : Inv participants trace state)
    {call : ℕ}
    (hpushed : ∀ slot next count, .push call next count ∉ state.frames slot)
    {index : ℕ} (hindex : index ∈ unretired trace (state.calls call) call) :
    ∃ slot < participants, ⟨call, index⟩ ∈ state.deques slot ∨
      ∃ frame ∈ state.frames slot, frame.task? = some ⟨call, index⟩ := by
  obtain ⟨hlt, hzero⟩ := Finset.mem_filter.1 hindex
  have hborn : state.born ⟨call, index⟩ = 1 := by
    have hdeferred := (state.calls call).deferred_le
    have := Finset.mem_range.1 hlt
    rw [State.born, if_pos (by simp only; omega)]
  have hplaced := hinv.places.placed ⟨call, index⟩
  rw [hzero, hborn, State.total] at hplaced
  by_cases hframes : 0 < census participants (Frame.places ⟨call, index⟩)
      state.frames
  · obtain ⟨slot, hslot, frame, hframe, hpos⟩ := exists_of_census_pos hframes
    refine ⟨slot, hslot, .inr ⟨frame, hframe, Frame.task?_of_places hpos ?_⟩⟩
    rintro next count rfl
    exact hpushed slot next count hframe
  · have htasks : 0 < census participants (isTask ⟨call, index⟩)
        state.deques := by omega
    obtain ⟨slot, hslot, task, htask, hpos⟩ := exists_of_census_pos htasks
    rw [eq_of_isTask_pos hpos] at htask
    exact ⟨slot, hslot, .inl htask⟩

/-- For every number of slots, every tree of calls, every set of throwing
bodies, every stop and every interleaving, the calls join. -/
theorem forkJoin_joins (participants : ℕ) (stopped : ℕ → Bool)
    {trace : List (Event Exn)} {state : State Exn}
    (run : Reaches (forkJoin Exn participants) (start Exn stopped) trace
      state) : JoinCorrect participants trace state := by
  have hinv := inv_run_of_reaches run
  exact
    { pending := hinv.effective
      shared := hinv.ledger.pending
      own := hinv.ledger.own
      counted := fun task via hevent =>
        (hinv.ledger.counted task via hevent).1
      retiredOnce := hinv.places.retiredCount_le
      located := fun call hpushed index hindex => hinv.located hpushed hindex
      ranOnce := hinv.places.ranCount_le
      returnedOnce := fun call => by
        have := hinv.places.owned call
        split at this <;> omega
      joined := fun action after call result hstep => hinv.joined hstep }

/-- A body that throws and one that ends. -/
def innerTask (index : ℕ) : Prog ℕ :=
  if index = 0 then .done (some 7) else .done none

/-- The second task makes a call of two and catches what it throws. -/
def outerTask (index : ℕ) : Prog ℕ :=
  if index = 0 then .done none else .fork none 2 innerTask fun _ => .done none

/-- Two slots; the thief takes a task of each call. -/
def stolenThrow : List (Action ℕ) :=
  List.flatten
    [[.start none 2 outerTask], List.replicate 3 (.advance 0),
      [.wake 1, .advance 1, .advance 1, .steal 1 0 true],
      List.replicate 4 (.advance 1), List.replicate 9 (.advance 0),
      [.advance 1, .advance 1, .steal 1 0 true],
      List.replicate 6 (.advance 1), List.replicate 7 (.advance 0),
      [.advance 1], List.replicate 2 (.advance 0)]

theorem forkJoin_joins_stolenThrow : ∃ trace state,
    .returned 1 (some 7) ∈ trace ∧ .returned 0 none ∈ trace ∧
      JoinCorrect 2 (trace : List (Event ℕ)) state := by
  obtain ⟨trace, state, run, hreturned⟩ :=
    reaches_of_check (forkJoin ℕ 2) (start ℕ fun _ => false) stolenThrow
      (fun trace _ => decide (.returned 1 (some 7) ∈ trace) &&
        decide (.returned 0 none ∈ trace))
      (by decide +kernel)
  simp only [Bool.and_eq_true, decide_eq_true_eq] at hreturned
  exact ⟨trace, state, hreturned.1, hreturned.2, forkJoin_joins 2 _ run⟩

end Citor.ForkJoin
