import Citor.ForkJoin.JoinCorrectness

/-!
# What a step does to the stacks

Apart from the counters a step replaces the top of one slot's stack.  It enters
or ends a body, lets it make a call or go on behind one, or it moves frames
that are neither a body nor wait for a call.
-/

namespace Citor.ForkJoin

open Citor.Interleaving Citor.Census

variable {Exn : Type}

/-- The frame is not inside a body. -/
def Frame.Outside : Frame Exn → Prop
  | .body _ _ _ | .wait _ _ _ => False
  | _ => True

/-- A step that makes no call. -/
structure Keeps (before after : State Exn) : Prop where
  calls : ∀ call, (after.calls call).SameShape (before.calls call)
  callCount : after.callCount = before.callCount
  stopped : after.stopped = before.stopped

/-- A step of `slot` replaces `old` by `new` on top of `rest`. -/
structure Replaces (before after : State Exn) (slot : ℕ)
    (old new rest : List (Frame Exn)) : Prop extends Keeps before after where
  top : before.frames slot = old ++ rest
  frames : after.frames = Function.update before.frames slot (new ++ rest)

/-- The new frame carries on the call of the old one. -/
structure Hands (old new : Frame Exn) : Prop where
  call : new.call = old.call
  owns : old.owns old.call = 1 → new.owns new.call = 1

inductive Effect (before after : State Exn) (slot : ℕ) :
    Option (Event Exn) → Prop
  | enters (call : ℕ) :
      Replaces before after slot [] [.drain call .worker .check none] [] →
      Effect before after slot none
  /-- A drain takes a task. -/
  | takes (old new : Frame Exn) (task : Task) (via : Via)
      (rest : List (Frame Exn)) :
      Replaces before after slot [old] [.gate task via, new] rest →
      old.Outside → new.Outside → Hands old new → Effect before after slot none
  | shifts (old new : Frame Exn) (rest : List (Frame Exn))
      (event : Option (Event Exn)) :
      Replaces before after slot [old] [new] rest → old.Outside →
      new.Outside → Hands old new →
      (∀ emitted ∈ event, (∃ task, emitted = .skipped task) ∨
        ∃ task via, emitted = .retired task via) →
      Effect before after slot event
  /-- A frame that does not carry its call goes away. -/
  | drops (old : Frame Exn) (rest : List (Frame Exn))
      (event : Option (Event Exn)) :
      Replaces before after slot [old] [] rest → old.Outside →
      old.owns old.call = 0 →
      (∀ emitted ∈ event, ∃ task via, emitted = .retired task via) →
      Effect before after slot event
  | ran (task : Task) (via : Via) (rest : List (Frame Exn)) :
      Replaces before after slot [.poll task via]
        [.body task via ((before.calls task.call).child task.index)] rest →
      Effect before after slot (some (.ran task))
  | polls (task : Task) (via : Via) (token : ℕ) (next : Bool → Prog Exn)
      (rest : List (Frame Exn)) :
      Replaces before after slot [.body task via (.poll token next)]
        [.body task via (next (before.stopped token))] rest →
      Effect before after slot none
  | ended (task : Task) (via : Via) (result : Option Exn) (new : Frame Exn)
      (rest : List (Frame Exn)) :
      Replaces before after slot [.body task via (.done result)] [new] rest →
      new.Outside → Hands (.body task via (.done result)) new →
      Effect before after slot (some (.ended task result))
  | forks (task : Task) (via : Via) (token : Option ℕ) (count : ℕ)
      (child : ℕ → Prog Exn) (next : Option Exn → Prog Exn)
      (rest : List (Frame Exn)) :
      before.frames slot = .body task via (.fork token count child next) ::
        rest →
      after = before.openCall slot (before.calls task.call).inside token count
        child (.wait task via next :: rest) →
      Effect before after slot none
  | resumes (call : ℕ) (old : Frame Exn) (task : Task) (via : Via)
      (next : Option Exn → Prog Exn) (result : Option Exn)
      (rest : List (Frame Exn)) :
      (old = .rethrow call ∨ old = .ret call result) →
      Replaces before after slot [old, .wait task via next]
        [.body task via (next result)] rest →
      Effect before after slot (some (.returned call result))
  /-- The outermost call returns. -/
  | leaves (call : ℕ) (old : Frame Exn) (result : Option Exn) :
      (old = .rethrow call ∨ old = .ret call result) →
      Replaces before after slot [old] [] [] →
      Effect before after slot (some (.returned call result))

section Steps

variable {participants slot : ℕ} {before after : State Exn}
variable {event : Option (Event Exn)} {rest : List (Frame Exn)}

theorem keeps_setFrames (frames : List (Frame Exn)) :
    Keeps before (before.setFrames slot frames) :=
  ⟨fun _ => .refl _, rfl, rfl⟩

/-- A step that changes the counters or flags of a call. -/
theorem keeps_setCall {call : ℕ} {record : Call Exn}
    (hshape : record.SameShape (before.calls call))
    (frames : List (Frame Exn)) :
    Keeps before ((before.setCall call record).setFrames slot frames) where
  calls other := by
    by_cases hsame : other = call
    · subst hsame
      simpa [State.setCall, State.setFrames] using hshape
    · simpa [State.setCall, State.setFrames, hsame] using Call.SameShape.refl _
  callCount := rfl
  stopped := rfl

theorem effect_retire {task : Task} {via : Via} {escaping : Option Exn}
    (htop : before.frames slot = .retire task via escaping :: rest) :
    Effect before (retireTask before slot task via escaping rest) slot
      (some (.retired task via)) := by
  have hshape : ∀ pending own, Call.SameShape
      { before.calls task.call with
        pendingTasks := pending, ownPending := own }
      (before.calls task.call) := fun _ _ => ⟨rfl, rfl, rfl, rfl, rfl⟩
  cases via with
  | own =>
      exact .drops (.retire task .own escaping) rest _
        ⟨keeps_setCall (hshape _ _) _, htop, rfl⟩ trivial rfl (by simp)
  | shared =>
      exact .drops (.retire task .shared escaping) rest _
        ⟨keeps_setCall (hshape _ _) _, htop, rfl⟩ trivial rfl (by simp)
  | tail =>
      exact .shifts (.retire task .tail escaping)
        (.drain task.call .nested .check none) rest _
        ⟨keeps_setFrames _, htop, rfl⟩ trivial trivial ⟨rfl, by simp⟩
        (by simp)
  | single =>
      exact .shifts (.retire task .single escaping) (.ret task.call escaping)
        rest _ ⟨keeps_setFrames _, htop, rfl⟩ trivial trivial ⟨rfl, by simp⟩
        (by simp)

theorem effect_advanceTask {frame : Frame Exn}
    (htop : before.frames slot = frame :: rest)
    (hstep : advanceTask before slot rest frame = some (after, event)) :
    Effect before after slot event := by
  cases frame with
  | gate task via =>
      simp only [advanceTask] at hstep
      split_ifs at hstep <;>
        obtain ⟨rfl, rfl⟩ := Prod.mk.inj (Option.some.inj hstep)
      · exact .shifts (.gate task via) (.retire task via none) rest _
          ⟨keeps_setFrames _, htop, rfl⟩ trivial trivial ⟨rfl, id⟩ (by simp)
      · exact .shifts (.gate task via) (.poll task via) rest _
          ⟨keeps_setFrames _, htop, rfl⟩ trivial trivial ⟨rfl, id⟩ (by simp)
  | poll task via =>
      simp only [advanceTask] at hstep
      split_ifs at hstep <;>
        obtain ⟨rfl, rfl⟩ := Prod.mk.inj (Option.some.inj hstep)
      · exact .shifts (.poll task via) (.retire task via none) rest _
          ⟨keeps_setFrames _, htop, rfl⟩ trivial trivial ⟨rfl, id⟩ (by simp)
      · exact .ran task via rest ⟨keeps_setFrames _, htop, rfl⟩
  | body task via prog =>
      cases prog with
      | done result =>
          obtain ⟨rfl, rfl⟩ := Prod.mk.inj (Option.some.inj hstep)
          apply Effect.ended task via result _ rest
            ⟨keeps_setFrames _, htop, rfl⟩
          · cases via <;> cases result <;> trivial
          · cases via <;> cases result <;> exact ⟨rfl, id⟩
      | poll token next =>
          obtain ⟨rfl, rfl⟩ := Prod.mk.inj (Option.some.inj hstep)
          exact .polls task via token next rest ⟨keeps_setFrames _, htop, rfl⟩
      | fork token count child next =>
          obtain ⟨rfl, rfl⟩ := Prod.mk.inj (Option.some.inj hstep)
          exact .forks task via token count child next rest htop rfl
  | capture task via thrown =>
      obtain ⟨rfl, rfl⟩ := Prod.mk.inj (Option.some.inj hstep)
      apply Effect.shifts (.capture task via thrown) (.cancel task via) rest _
        ⟨keeps_setCall ?_ _, htop, rfl⟩ trivial trivial ⟨rfl, id⟩ (by simp)
      exact ⟨rfl, rfl, rfl, rfl, rfl⟩
  | cancel task via =>
      obtain ⟨rfl, rfl⟩ := Prod.mk.inj (Option.some.inj hstep)
      apply Effect.shifts (.cancel task via) (.retire task via none) rest _
        ⟨keeps_setCall ?_ _, htop, rfl⟩ trivial trivial ⟨rfl, id⟩ (by simp)
      exact ⟨rfl, rfl, rfl, rfl, rfl⟩
  | retire task via escaping =>
      obtain ⟨rfl, rfl⟩ := Prod.mk.inj (Option.some.inj hstep)
      exact effect_retire htop
  | push | wait | drain | join | rethrow | ret => simp [advanceTask] at hstep

theorem effect_advanceCall {frame : Frame Exn}
    (htop : before.frames slot = frame :: rest)
    (hstep : advanceCall participants before slot rest frame =
      some (after, event)) : Effect before after slot event := by
  cases frame with
  | push call next count =>
      simp only [advanceCall] at hstep
      split at hstep
      · obtain ⟨rfl, rfl⟩ := Prod.mk.inj (Option.some.inj hstep)
        exact .shifts (.push call next count) (.push call (next + 1) count)
          rest _ ⟨⟨fun _ => .refl _, rfl, rfl⟩, htop, rfl⟩ trivial trivial
          ⟨rfl, id⟩ (by simp)
      · split at hstep
        · obtain ⟨rfl, rfl⟩ := Prod.mk.inj (Option.some.inj hstep)
          exact .shifts (.push call next count) (.gate ⟨call, next⟩ .tail) rest
            _ ⟨keeps_setFrames _, htop, rfl⟩ trivial trivial ⟨rfl, by simp⟩
            (by simp)
        · obtain ⟨rfl, rfl⟩ := Prod.mk.inj (Option.some.inj hstep)
          exact .shifts (.push call next count)
            (.drain call .producer .check none) rest _
            ⟨⟨fun _ => .refl _, rfl, rfl⟩, htop, rfl⟩ trivial trivial
            ⟨rfl, by simp⟩ (by simp)
        · simp at hstep
  | join call =>
      simp only [advanceCall] at hstep
      split_ifs at hstep
      obtain ⟨rfl, rfl⟩ := Prod.mk.inj (Option.some.inj hstep)
      exact .shifts (.join call) (.rethrow call) rest _
        ⟨keeps_setFrames _, htop, rfl⟩ trivial trivial ⟨rfl, id⟩ (by simp)
  | rethrow call =>
      simp only [advanceCall, Option.bind_eq_bind, Option.pure_def,
        Option.bind_eq_some_iff, Option.some.injEq, Prod.mk.injEq] at hstep
      obtain ⟨below, hresume, rfl, rfl⟩ := hstep
      obtain ⟨rfl, rfl⟩ | ⟨task, via, next, tail, rfl, rfl⟩ :=
        resume_cases hresume
      · apply Effect.leaves call (.rethrow call) _ (.inl rfl)
          ⟨keeps_setCall ?_ _, htop, rfl⟩
        exact ⟨rfl, rfl, rfl, rfl, rfl⟩
      · apply Effect.resumes call (.rethrow call) task via next _ tail
          (.inl rfl) ⟨keeps_setCall ?_ _, htop, rfl⟩
        exact ⟨rfl, rfl, rfl, rfl, rfl⟩
  | ret call result =>
      simp only [advanceCall, Option.bind_eq_bind, Option.pure_def,
        Option.bind_eq_some_iff, Option.some.injEq, Prod.mk.injEq] at hstep
      obtain ⟨below, hresume, rfl, rfl⟩ := hstep
      obtain ⟨rfl, rfl⟩ | ⟨task, via, next, tail, rfl, rfl⟩ :=
        resume_cases hresume
      · exact .leaves call (.ret call result) _ (.inr rfl)
          ⟨keeps_setFrames _, htop, rfl⟩
      · exact .resumes call (.ret call result) task via next _ tail (.inr rfl)
          ⟨keeps_setFrames _, htop, rfl⟩
  | gate | poll | body | wait | capture | cancel | retire | drain =>
      simp [advanceCall] at hstep

theorem effect_advanceDrain {call : ℕ} {role : Role} {pc : DrainPc}
    {lastVictim : Option ℕ}
    (htop : before.frames slot = .drain call role pc lastVictim :: rest)
    (hstep : advanceDrain before slot call role pc lastVictim rest =
      some (after, event)) : Effect before after slot event := by
  cases pc with
  | check =>
      simp only [advanceDrain] at hstep
      split at hstep
      · cases role with
        | nested =>
            obtain ⟨rfl, rfl⟩ := Prod.mk.inj (Option.some.inj hstep)
            exact .shifts (.drain call .nested .check lastVictim)
              (.rethrow call) rest _ ⟨keeps_setFrames _, htop, rfl⟩ trivial
              trivial ⟨rfl, by simp⟩ (by simp)
        | producer =>
            obtain ⟨rfl, rfl⟩ := Prod.mk.inj (Option.some.inj hstep)
            exact .shifts (.drain call .producer .check lastVictim)
              (.join call) rest _ ⟨keeps_setFrames _, htop, rfl⟩ trivial
              trivial ⟨rfl, by simp⟩ (by simp)
        | worker =>
            obtain ⟨rfl, rfl⟩ := Prod.mk.inj (Option.some.inj hstep)
            exact .drops (.drain call .worker .check lastVictim) rest _
              ⟨⟨fun _ => .refl _, rfl, rfl⟩, htop, rfl⟩ trivial (by simp)
              (by simp)
      · obtain ⟨rfl, rfl⟩ := Prod.mk.inj (Option.some.inj hstep)
        exact .shifts (.drain call role .check lastVictim)
          (.drain call role .pop lastVictim) rest _
          ⟨keeps_setFrames _, htop, rfl⟩ trivial trivial ⟨rfl, id⟩ (by simp)
  | pop =>
      simp only [advanceDrain] at hstep
      split at hstep
      · obtain ⟨rfl, rfl⟩ := Prod.mk.inj (Option.some.inj hstep)
        exact .takes (.drain call role .pop lastVictim)
          (.drain call role .check lastVictim) _ _ rest
          ⟨⟨fun _ => .refl _, rfl, rfl⟩, htop, rfl⟩ trivial trivial ⟨rfl, id⟩
      · obtain ⟨rfl, rfl⟩ := Prod.mk.inj (Option.some.inj hstep)
        exact .shifts (.drain call role .pop lastVictim)
          (.drain call role _ lastVictim) rest _
          ⟨keeps_setFrames _, htop, rfl⟩ trivial trivial ⟨rfl, id⟩ (by simp)
  | hot | random => simp [advanceDrain] at hstep

theorem effect_probeVictim {victim : ℕ} {hit : Bool}
    (hstep : probeVictim participants before slot victim hit =
      some (after, event)) : Effect before after slot event := by
  unfold probeVictim at hstep
  split at hstep
  next call role lastVictim rest htop =>
    split_ifs at hstep
    split at hstep
    · obtain ⟨rfl, rfl⟩ := Prod.mk.inj (Option.some.inj hstep)
      exact .shifts (.drain call role .hot (some lastVictim))
        (.drain call role .random none) rest _ ⟨keeps_setFrames _, htop, rfl⟩
        trivial trivial ⟨rfl, id⟩ (by simp)
    · simp at hstep
    · obtain ⟨rfl, rfl⟩ := Prod.mk.inj (Option.some.inj hstep)
      exact .takes (.drain call role .hot (some lastVictim))
        (.drain call role .check (some victim)) _ _ rest
        ⟨⟨fun _ => .refl _, rfl, rfl⟩, htop, rfl⟩ trivial trivial ⟨rfl, id⟩
  next call role lastVictim rest htop =>
    split_ifs at hstep
    split at hstep
    · obtain ⟨rfl, rfl⟩ := Prod.mk.inj (Option.some.inj hstep)
      exact .shifts (.drain call role .random lastVictim)
        (.drain call role .check none) rest _ ⟨keeps_setFrames _, htop, rfl⟩
        trivial trivial ⟨rfl, id⟩ (by simp)
    · simp at hstep
    · obtain ⟨rfl, rfl⟩ := Prod.mk.inj (Option.some.inj hstep)
      exact .takes (.drain call role .random lastVictim)
        (.drain call role .check (some victim)) _ _ rest
        ⟨⟨fun _ => .refl _, rfl, rfl⟩, htop, rfl⟩ trivial trivial ⟨rfl, id⟩
  next => simp at hstep

/-- Every step of a slot is one of these. -/
theorem effect_advance
    (hstep : step participants before (.advance slot) = some (after, event)) :
    slot < participants ∧ Effect before after slot event := by
  simp only [step] at hstep
  split_ifs at hstep with hslot
  refine ⟨hslot, ?_⟩
  split at hstep
  · simp at hstep
  · next call role pc lastVictim rest htop =>
      exact effect_advanceDrain htop hstep
  · next frame rest hframe htop =>
      obtain htask | ⟨-, hcall⟩ := Option.or_eq_some_iff.1 hstep
      · exact effect_advanceTask htop htask
      · exact effect_advanceCall htop hcall

theorem effect_steal {victim : ℕ} {hit : Bool}
    (hstep : step participants before (.steal slot victim hit) =
      some (after, event)) :
    slot < participants ∧ Effect before after slot event := by
  simp only [step] at hstep
  split_ifs at hstep with hslot
  exact ⟨hslot, effect_probeVictim hstep⟩

theorem effect_wake
    (hstep : step participants before (.wake slot) = some (after, event)) :
    slot < participants ∧ Effect before after slot event := by
  simp only [step] at hstep
  split at hstep
  next call hframes hworker =>
    split_ifs at hstep with hslot
    obtain ⟨rfl, rfl⟩ := Prod.mk.inj (Option.some.inj hstep)
    exact ⟨hslot.1, .enters call ⟨⟨fun _ => .refl _, rfl, rfl⟩, hframes, rfl⟩⟩
  next => simp at hstep

end Steps

end Citor.ForkJoin
