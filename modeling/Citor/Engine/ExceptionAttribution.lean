import Citor.Core.Interleaving
import Citor.Engine.BlockRunners

/-!
# Exceptions of the calls of one thread

The `parallelFor` and `parallelReduce` calls that one thread makes, on any of
its pools.  The typed calls publish one of two descriptors that the thread
keeps from call to call, so what a rank captured in one call could surface in
a later one.
-/

namespace Citor.ExceptionAttribution

open Interleaving BlockRunners DoneSlots

/-- The `JobDescriptor` a call publishes. -/
inductive Descriptor
  | sharedParallelForDesc
  | sharedReduceDesc
  | stack
  deriving DecidableEq, Repr

/-- The entry points, by how they dispatch. -/
inductive Primitive
  /-- `parallelFor` with a static or dynamic balance: slot 0 is typed. -/
  | parallelFor
  /-- `parallelFor` with another balance. -/
  | parallelForUntyped
  | parallelForRuntime
  | parallelReduce
  | parallelReduceRuntime
  deriving DecidableEq, Repr

def Primitive.descriptor : Primitive → Descriptor
  | .parallelFor | .parallelForUntyped => .sharedParallelForDesc
  | .parallelReduce => .sharedReduceDesc
  | .parallelForRuntime | .parallelReduceRuntime => .stack

/-- Whether the call combines the blocks' results afterwards, which may throw
an exception of its own: `cancelled_value_exception` or one of `combine`. -/
def Primitive.reduces : Primitive → Bool
  | .parallelReduce | .parallelReduceRuntime => true
  | .parallelFor | .parallelForUntyped | .parallelForRuntime => false

/-- `kSlot0Nothrow`: the callable of slot 0 takes `(lo, hi)` and does not
throw.  The callable of a typed reduce takes the block id as well. -/
def Primitive.slot0Nothrow (primitive : Primitive) (dispatch : Dispatch) :
    Bool :=
  primitive = .parallelFor && dispatch.bodyNoexcept

/-- The inline fallback: its blocks in order, on the caller. -/
structure InlineJob where
  blockCount : ℕ
  /-- Whether it looks at the token between the blocks, and not only once in
  front of them. -/
  polls : Bool
  throws : ℕ → Bool

/-- Whether it stops in front of the block. -/
def InlineJob.stops (job : InlineJob) (stopRequested : Bool) (blockId : ℕ) :
    Bool :=
  stopRequested && (blockId == 0 || job.polls)

inductive Job
  /-- A dispatch, and the value its block counter has from earlier calls. -/
  | dispatched (dispatch : Dispatch) (stale : ℕ)
  | inline (job : InlineJob)

structure Call where
  primitive : Primitive
  job : Job

/-- A run of a body: the call, the rank and the block. -/
structure Body where
  call : ℕ
  rank : ℕ
  blockId : ℕ
  deriving DecidableEq, Repr

/-- How a call leaves. -/
inductive Outcome
  | returned
  | rethrew (body : Body)
  /-- It throws an exception of its own. -/
  | failed
  deriving DecidableEq, Repr

inductive Event
  | started (body : Body)
  | finished (body : Body)
  | threw (body : Body)
  | left (call : ℕ) (outcome : Outcome)
  deriving DecidableEq, Repr

def Event.call : Event → ℕ
  | .started body | .finished body | .threw body => body.call
  | .left call _ => call

/-- Where the rank is in its runner. -/
inductive RankPc
  | entered
  | claimed (blockId : ℕ)
  | running (blockId : ℕ)
  /-- In the `catch` block, in front of the compare-exchange. -/
  | caught (blockId : ℕ)
  | ran (blockId : ℕ)
  | returned
  /-- The mailbox of its slot carries the done stamp of the dispatch. -/
  | stamped
  deriving DecidableEq, Repr

structure Progress where
  nextBlock : ℕ
  stopRequested : Bool
  ranks : ℕ → RankPc
  /-- The slots whose done stamp the join has not seen. -/
  pending : Finset ℕ

def Progress.at (progress : Progress) (rank : ℕ) (pc : RankPc) : Progress :=
  { progress with ranks := Function.update progress.ranks rank pc }

/-- What the checks of the runners read. -/
def Progress.view (progress : Progress) (captured : Option Body) :
    RunState where
  nextBlock := progress.nextBlock
  firstException := captured.map Body.rank
  stopRequested := progress.stopRequested
  ranks := fun _ => .entered

inductive InlinePc
  /-- In front of the block. -/
  | next (blockId : ℕ)
  | running (blockId : ℕ)
  /-- The block's exception leaves the call. -/
  | unwinding (body : Body)
  deriving DecidableEq, Repr

inductive Phase
  /-- The thread is between two calls. -/
  | idle
  | dispatching (primitive : Primitive) (dispatch : Dispatch)
      (progress : Progress)
  | inlining (primitive : Primitive) (job : InlineJob) (pc : InlinePc)
      (stopRequested : Bool)

structure State where
  /-- How many calls have begun. -/
  calls : ℕ
  /-- `firstException` of the descriptors. -/
  captured : Descriptor → Option Body
  phase : Phase

def State.setPhase (state : State) (phase : Phase) : State :=
  { state with phase := phase }

/-- The number of the call that is running. -/
def State.current (state : State) : ℕ :=
  state.calls - 1

inductive Action
  | begin (call : Call)
  /-- A stop request on the call's token. -/
  | stop
  | rank (rank : ℕ)
  /-- The done stamp of a slot is stored, by its worker or by the producer. -/
  | stamp (slot : ℕ)
  /-- The join sees the done stamp of a slot. -/
  | join (slot : ℕ)
  /-- The call leaves; what comes after the blocks may fail. -/
  | leave (fails : Bool)
  | inline

/-- A claim by the rank. -/
def claim (dispatch : Dispatch) (progress : Progress) (rank : ℕ)
    (prevIdx : Option ℕ) : Progress :=
  let (blockId, nextBlock) :=
    dispatch.nextBlockId rank prevIdx progress.nextBlock
  { progress.at rank (blockId.elim .returned .claimed) with
    nextBlock := nextBlock }

/-- One step of a rank's runner: the progress, the exception slot and what
can be observed. -/
def stepRank (call : ℕ) (dispatch : Dispatch) (progress : Progress)
    (captured : Option Body) (rank : ℕ) :
    Option (Progress × Option Body × Option Event) :=
  if dispatch.desc.participants ≤ rank then none
  else match progress.ranks rank with
    | .entered =>
        if dispatch.leavesOnEntry (progress.view captured) then
          some (progress.at rank .returned, captured, none)
        else some (claim dispatch progress rank none, captured, none)
    | .claimed blockId =>
        if dispatch.leavesBeforeBody (progress.view captured) rank then
          some (progress.at rank .returned, captured, none)
        else
          some (progress.at rank (.running blockId), captured,
            some (.started ⟨call, rank, blockId⟩))
    | .running blockId =>
        if dispatch.throws blockId then
          some (progress.at rank (.caught blockId), captured,
            some (.threw ⟨call, rank, blockId⟩))
        else
          some (progress.at rank (.ran blockId), captured,
            some (.finished ⟨call, rank, blockId⟩))
    | .caught blockId =>
        some (progress.at rank .returned,
          captureFirstException captured ⟨call, rank, blockId⟩, none)
    | .ran blockId =>
        some (claim dispatch progress rank (some blockId), captured, none)
    | .returned | .stamped => none

/-- The fresh progress of a dispatch. -/
def beginProgress (dispatch : Dispatch) (stale : ℕ) : Progress where
  nextBlock := dispatch.desc.startCounter stale
  stopRequested := false
  ranks := fun _ => .entered
  pending := Finset.Ico 1 dispatch.desc.participants

/-- The start of a call; a descriptor on the stack is a fresh one. -/
def State.begin (state : State) (call : Call) : State where
  calls := state.calls + 1
  captured :=
    if call.primitive.descriptor = .stack then
      Function.update state.captured .stack none
    else state.captured
  phase :=
    match call.job with
    | .dispatched dispatch stale =>
        .dispatching call.primitive dispatch (beginProgress dispatch stale)
    | .inline job => .inlining call.primitive job (.next 0) false

/-- The call leaves without a body's exception. -/
def endOutcome (primitive : Primitive) (fails : Bool) : Outcome :=
  if fails && primitive.reduces then .failed else .returned

/-- `rethrowIfCaptured`, where it is not compiled out. -/
def State.leave (state : State) (primitive : Primitive) (dispatch : Dispatch)
    (fails : Bool) : State × Outcome :=
  if primitive.slot0Nothrow dispatch then
    (state.setPhase .idle, endOutcome primitive fails)
  else match state.captured primitive.descriptor with
    | some body =>
        ({ state with
            captured := Function.update state.captured primitive.descriptor none
            phase := .idle }, .rethrew body)
    | none => (state.setPhase .idle, endOutcome primitive fails)

def stepInline (call : ℕ) (job : InlineJob) (stopRequested : Bool) :
    InlinePc → Option (InlinePc × Option Event)
  | .next blockId =>
      if blockId < job.blockCount ∧
          job.stops stopRequested blockId = false then
        some (.running blockId, some (.started ⟨call, 0, blockId⟩))
      else none
  | .running blockId =>
      if job.throws blockId then
        some (.unwinding ⟨call, 0, blockId⟩,
          some (.threw ⟨call, 0, blockId⟩))
      else some (.next (blockId + 1), some (.finished ⟨call, 0, blockId⟩))
  | .unwinding _ => none

/-- How an inline call leaves where it stands, if it does. -/
def leaveInline (primitive : Primitive) (job : InlineJob)
    (stopRequested fails : Bool) : InlinePc → Option Outcome
  | .next blockId =>
      if blockId < job.blockCount ∧
          job.stops stopRequested blockId = false then none
      else some (endOutcome primitive fails)
  | .running _ => none
  | .unwinding body => some (.rethrew body)

/-- The calls of one thread, with the ranks of each interleaved in any
order. -/
def thread : Machine State Action Event where
  step state action :=
    match state.phase, action with
    | .idle, .begin call => some (state.begin call, none)
    | .dispatching primitive dispatch progress, .stop =>
        some (state.setPhase (.dispatching primitive dispatch
          { progress with stopRequested := true }), none)
    | .dispatching primitive dispatch progress, .rank rank =>
        (stepRank state.current dispatch progress
          (state.captured primitive.descriptor) rank).map
          fun (after, captured, event) =>
            ({ state with
                captured := Function.update state.captured
                  primitive.descriptor captured
                phase := .dispatching primitive dispatch after }, event)
    | .dispatching primitive dispatch progress, .stamp slot =>
        if slot ≠ 0 ∧ progress.ranks slot = .returned then
          some (state.setPhase (.dispatching primitive dispatch
            (progress.at slot .stamped)), none)
        else none
    | .dispatching primitive dispatch progress, .join slot =>
        if progress.ranks 0 = .returned ∧ progress.ranks slot = .stamped then
          some (state.setPhase (.dispatching primitive dispatch
            { progress with pending := progress.pending.erase slot }), none)
        else none
    | .dispatching primitive dispatch progress, .leave fails =>
        if progress.ranks 0 = .returned ∧ progress.pending = ∅ then
          let (after, outcome) := state.leave primitive dispatch fails
          some (after, some (.left state.current outcome))
        else none
    | .inlining primitive job pc _, .stop =>
        some (state.setPhase (.inlining primitive job pc true), none)
    | .inlining primitive job pc stopRequested, .inline =>
        (stepInline state.current job stopRequested pc).map
          fun (after, event) =>
            (state.setPhase (.inlining primitive job after stopRequested),
              event)
    | .inlining primitive job pc stopRequested, .leave fails =>
        (leaveInline primitive job stopRequested fails pc).map fun outcome =>
          (state.setPhase .idle, some (.left state.current outcome))
    | _, _ => none

/-- A thread that has made no call. -/
def start : State where
  calls := 0
  captured := fun _ => none
  phase := .idle

/-- An event, and the trace in front of it. -/
structure Attributed (earlier : List Event) (event : Event) : Prop where
  /-- Nothing of a call happens once it has left. -/
  notLeft : ∀ outcome, .left event.call outcome ∉ earlier
  rethrows : ∀ call outcome, event = .left call outcome →
    ((∃ body, outcome = .rethrew body) ↔
      ∃ body, body.call = call ∧ .threw body ∈ earlier)
  own : ∀ call body, event = .left call (.rethrew body) →
    body.call = call ∧ .threw body ∈ earlier
  /-- Every body that was started has ended. -/
  ended : ∀ call outcome, event = .left call outcome → ∀ body,
    body.call = call → earlier.count (.started body) =
      earlier.count (.finished body) + earlier.count (.threw body)

/-- The whole history of a thread. -/
structure HistorySound (trace : List Event) (state : State) : Prop where
  attributed : ∀ earlier event later, trace = earlier ++ event :: later →
    Attributed earlier event
  cleared : state.phase = .idle → ∀ descriptor, state.captured descriptor = none

section Facts

variable {trace : List Event} {call rank blockId : ℕ} {dispatch : Dispatch}
variable {progress after : Progress} {captured slot : Option Body}
variable {running : ℕ → Option ℕ}

/-! ## Bodies -/

/-- A body that was started has ended, or its rank is running it. -/
def Balanced (trace : List Event) (call : ℕ) (running : ℕ → Option ℕ) : Prop :=
  ∀ body, body.call = call → trace.count (.started body) =
    trace.count (.finished body) + trace.count (.threw body) +
      if running body.rank = some body.blockId then 1 else 0

theorem Balanced.started (hbalanced : Balanced trace call running)
    (hidle : running rank = none) :
    Balanced (trace ++ [.started ⟨call, rank, blockId⟩]) call
      (Function.update running rank (some blockId)) := by
  intro body hcall
  have hbody := hbalanced body hcall
  obtain ⟨_, other, block⟩ := body
  obtain rfl : _ = call := hcall
  simp only [List.count_append, List.count_singleton] at hbody ⊢
  by_cases hrank : other = rank
  · subst hrank
    simp only [hidle, reduceCtorEq, if_false] at hbody
    by_cases hblock : block = blockId
    · subst hblock
      simp [hbody]
    · simp [hbody, Ne.symm hblock]
  · simpa [Function.update_of_ne hrank, Ne.symm hrank] using hbody

theorem Balanced.ended (hbalanced : Balanced trace call running)
    (hrunning : running rank = some blockId) {event : Event}
    (hevent : event = .finished ⟨call, rank, blockId⟩ ∨
      event = .threw ⟨call, rank, blockId⟩) :
    Balanced (trace ++ [event]) call
      (Function.update running rank none) := by
  intro body hcall
  have hbody := hbalanced body hcall
  obtain ⟨_, other, block⟩ := body
  obtain rfl : _ = call := hcall
  by_cases hrank : other = rank
  · subst hrank
    by_cases hblock : block = blockId
    · subst hblock
      rw [if_pos hrunning] at hbody
      rcases hevent with rfl | rfl <;>
        simp [List.count_append, hbody] <;> omega
    · have hother : running other ≠ some block := by
        rw [hrunning]
        exact fun h => hblock (Option.some.inj h).symm
      rw [if_neg hother] at hbody
      rcases hevent with rfl | rfl <;>
        simp [List.count_append, hbody, Ne.symm hblock]
  · rcases hevent with rfl | rfl <;>
      simpa [List.count_append, List.count_singleton,
        Function.update_of_ne hrank, Ne.symm hrank] using hbody

theorem Balanced.of_new (hnew : ∀ event ∈ trace, event.call ≠ call) :
    Balanced trace call fun _ => none := by
  intro body hcall
  have hnone : ∀ event, Event.call event = call → trace.count event = 0 :=
    fun event hevent => List.count_eq_zero.2 fun hmem =>
      hnew event hmem hevent
  rw [hnone (.started body) hcall, hnone (.finished body) hcall,
    hnone (.threw body) hcall]
  rfl

/-! ## Ranks -/

/-- The body the rank is running. -/
def RankPc.body : RankPc → Option ℕ
  | .running blockId => some blockId
  | _ => none

/-- The body whose exception the rank has caught. -/
def RankPc.catching : RankPc → Option ℕ
  | .caught blockId => some blockId
  | _ => none

def Progress.inBody (progress : Progress) (rank : ℕ) : Option ℕ :=
  (progress.ranks rank).body

@[simp]
theorem ranks_at (progress : Progress) (rank : ℕ) (pc : RankPc) :
    (progress.at rank pc).ranks = Function.update progress.ranks rank pc :=
  rfl

theorem inBody_at (pc : RankPc)
    (hranks : after.ranks = Function.update progress.ranks rank pc) :
    after.inBody = Function.update progress.inBody rank pc.body := by
  funext other
  by_cases hsame : other = rank
  · subst hsame
    simp [Progress.inBody, hranks]
  · simp [Progress.inBody, hranks, Function.update_of_ne hsame]

/-- A dispatch that is under way. -/
structure DispatchInv (trace : List Event) (call : ℕ) (dispatch : Dispatch)
    (progress : Progress) (captured : Option Body) : Prop where
  bodies : Balanced trace call progress.inBody
  outside : ∀ rank, dispatch.desc.participants ≤ rank →
    progress.ranks rank = .entered
  own : ∀ body, captured = some body →
    body.call = call ∧ .threw body ∈ trace
  threw : ∀ body, body.call = call → .threw body ∈ trace →
    dispatch.throws body.blockId = true ∧
      (captured ≠ none ∨
        (progress.ranks body.rank).catching = some body.blockId)
  caught : ∀ rank blockId, (progress.ranks rank).catching = some blockId →
    .threw ⟨call, rank, blockId⟩ ∈ trace
  joined : ∀ slot, 1 ≤ slot → slot < dispatch.desc.participants →
    slot ∉ progress.pending → progress.ranks slot = .stamped

/-- A rank moves between two places outside a body and a `catch` block. -/
theorem DispatchInv.move (hinv : DispatchInv trace call dispatch progress
      captured) {pc : RankPc} (hrank : rank < dispatch.desc.participants)
    (hbefore : (progress.ranks rank).body = none ∧
      (progress.ranks rank).catching = none)
    (hafter : pc.body = none ∧ pc.catching = none)
    (hstamped : progress.ranks rank ≠ .stamped)
    (hranks : after.ranks = Function.update progress.ranks rank pc)
    (hpending : after.pending = progress.pending) :
    DispatchInv trace call dispatch after captured where
  bodies := by
    have hsame : Function.update progress.inBody rank none =
        progress.inBody := by
      rw [show none = progress.inBody rank from hbefore.1.symm]
      exact Function.update_eq_self _ _
    rw [inBody_at pc hranks, hafter.1, hsame]
    exact hinv.bodies
  outside := fun other hother => by
    rw [hranks, Function.update_of_ne (hrank.trans_le hother).ne']
    exact hinv.outside other hother
  own := hinv.own
  threw := fun body hcall hthrew => by
    obtain ⟨hthrows, hheld⟩ := hinv.threw body hcall hthrew
    refine ⟨hthrows, hheld.imp id fun hcatching => ?_⟩
    have hother : body.rank ≠ rank := by
      rintro hsame
      rw [hsame, hbefore.2] at hcatching
      exact absurd hcatching (by simp)
    rwa [hranks, Function.update_of_ne hother]
  caught := fun other blockId hcatching => by
    rw [hranks] at hcatching
    by_cases hsame : other = rank
    · rw [hsame, Function.update_self, hafter.2] at hcatching
      exact absurd hcatching (by simp)
    · rw [Function.update_of_ne hsame] at hcatching
      exact hinv.caught other blockId hcatching
  joined := fun slot hpos hslot hseen => by
    have hstamp := hinv.joined slot hpos hslot (hpending ▸ hseen)
    have hother : slot ≠ rank := by
      rintro rfl
      exact hstamped hstamp
    rwa [hranks, Function.update_of_ne hother]

/-- A rank enters or leaves a body. -/
theorem DispatchInv.observe (hinv : DispatchInv trace call dispatch progress
      captured) {pc : RankPc} {event : Event}
    (hrank : rank < dispatch.desc.participants)
    (hcatching : (progress.ranks rank).catching = none)
    (hstamped : progress.ranks rank ≠ .stamped)
    (hbodies : Balanced (trace ++ [event]) call
      (Function.update progress.inBody rank pc.body))
    (hthrew : ∀ body, body.call = call → event = .threw body →
      dispatch.throws body.blockId = true ∧ body.rank = rank ∧
        pc = .caught body.blockId)
    (hcaught : ∀ blockId, pc.catching = some blockId →
      event = .threw ⟨call, rank, blockId⟩) :
    DispatchInv (trace ++ [event]) call dispatch (progress.at rank pc)
      captured where
  bodies := by rwa [inBody_at pc rfl]
  outside := fun other hother => by
    rw [ranks_at, Function.update_of_ne (hrank.trans_le hother).ne']
    exact hinv.outside other hother
  own := fun body hcaptured => (hinv.own body hcaptured).imp_right
    (List.mem_append_left _)
  threw := fun body hcall hmem => by
    rcases List.mem_append.1 hmem with hold | hnew
    · obtain ⟨hthrows, hheld⟩ := hinv.threw body hcall hold
      refine ⟨hthrows, hheld.imp id fun hcaught => ?_⟩
      have hother : body.rank ≠ rank := by
        rintro hsame
        rw [hsame, hcatching] at hcaught
        exact absurd hcaught (by simp)
      rwa [ranks_at, Function.update_of_ne hother]
    · obtain ⟨hthrows, rfl, rfl⟩ :=
        hthrew body hcall (List.mem_singleton.1 hnew).symm
      refine ⟨hthrows, .inr ?_⟩
      simp [RankPc.catching]
  caught := fun other blockId hcatching => by
    rw [ranks_at] at hcatching
    by_cases hsame : other = rank
    · rw [hsame, Function.update_self] at hcatching
      rw [hsame, hcaught blockId hcatching]
      exact List.mem_append_right _ (List.mem_singleton_self _)
    · rw [Function.update_of_ne hsame] at hcatching
      exact List.mem_append_left _ (hinv.caught other blockId hcatching)
  joined := fun slot hpos hslot hseen => by
    have hstamp := hinv.joined slot hpos hslot hseen
    have hother : slot ≠ rank := by
      rintro rfl
      exact hstamped hstamp
    rwa [ranks_at, Function.update_of_ne hother]

/-- The compare-exchange of a `catch` block. -/
theorem DispatchInv.capture (hinv : DispatchInv trace call dispatch progress
      captured) (hrank : rank < dispatch.desc.participants)
    (hpc : progress.ranks rank = .caught blockId) :
    DispatchInv trace call dispatch (progress.at rank .returned)
      (captureFirstException captured ⟨call, rank, blockId⟩) where
  bodies := by
    have hsame : Function.update progress.inBody rank none =
        progress.inBody := by
      rw [show none = progress.inBody rank by rw [Progress.inBody, hpc]; rfl]
      exact Function.update_eq_self _ _
    rw [inBody_at .returned rfl]
    exact hsame.symm ▸ hinv.bodies
  outside := fun other hother => by
    rw [ranks_at, Function.update_of_ne (hrank.trans_le hother).ne']
    exact hinv.outside other hother
  own := fun body hbody => by
    cases hslot : captured with
    | none =>
        obtain rfl : _ = body := by
          simpa [captureFirstException, hslot] using hbody
        exact ⟨rfl, hinv.caught rank blockId (by rw [hpc]; rfl)⟩
    | some first =>
        obtain rfl : first = body := by
          simpa [captureFirstException, hslot] using hbody
        exact hinv.own first hslot
  threw := fun body hcall hthrew =>
    ⟨(hinv.threw body hcall hthrew).1,
      .inl (captureFirstException_ne_none captured _)⟩
  caught := fun other block hcatching => by
    rw [ranks_at] at hcatching
    by_cases hsame : other = rank
    · rw [hsame, Function.update_self] at hcatching
      exact absurd hcatching (by simp [RankPc.catching])
    · rw [Function.update_of_ne hsame] at hcatching
      exact hinv.caught other block hcatching
  joined := fun slot hpos hslot hseen => by
    have hstamp := hinv.joined slot hpos hslot hseen
    have hother : slot ≠ rank := by
      rintro rfl
      rw [hpc] at hstamp
      exact absurd hstamp (by simp)
    rwa [ranks_at, Function.update_of_ne hother]

theorem DispatchInv.claim (hinv : DispatchInv trace call dispatch progress
      captured) (prevIdx : Option ℕ) (hrank : rank < dispatch.desc.participants)
    (hbefore : (progress.ranks rank).body = none ∧
      (progress.ranks rank).catching = none)
    (hstamped : progress.ranks rank ≠ .stamped) :
    DispatchInv trace call dispatch (claim dispatch progress rank prevIdx)
      captured := by
  have hplain : ∀ blockId : Option ℕ,
      (blockId.elim RankPc.returned .claimed).body = none ∧
        (blockId.elim RankPc.returned .claimed).catching = none := by
    rintro (_ | _) <;> exact ⟨rfl, rfl⟩
  exact hinv.move hrank hbefore (hplain _) hstamped rfl rfl

/-- One step of a runner. -/
theorem DispatchInv.step (hinv : DispatchInv trace call dispatch progress
      captured) {event : Option Event}
    (hstep : stepRank call dispatch progress captured rank =
      some (after, slot, event)) :
    DispatchInv (trace ++ event.toList) call dispatch after slot := by
  rw [stepRank] at hstep
  split at hstep
  next => simp at hstep
  next hparticipants =>
    have hrank : rank < dispatch.desc.participants :=
      Nat.lt_of_not_le hparticipants
    cases hpc : progress.ranks rank with
    | entered =>
        simp only [hpc] at hstep
        split at hstep
        · obtain ⟨rfl, rfl, rfl⟩ := by simpa using hstep
          rw [Option.toList_none, List.append_nil]
          exact hinv.move hrank (by rw [hpc]; exact ⟨rfl, rfl⟩) ⟨rfl, rfl⟩
            (by simp [hpc]) (ranks_at _ _ _) rfl
        · obtain ⟨rfl, rfl, rfl⟩ := by simpa using hstep
          rw [Option.toList_none, List.append_nil]
          exact hinv.claim none hrank (by rw [hpc]; exact ⟨rfl, rfl⟩)
            (by simp [hpc])
    | claimed blockId =>
        simp only [hpc] at hstep
        split at hstep
        · obtain ⟨rfl, rfl, rfl⟩ := by simpa using hstep
          rw [Option.toList_none, List.append_nil]
          exact hinv.move hrank (by rw [hpc]; exact ⟨rfl, rfl⟩) ⟨rfl, rfl⟩
            (by simp [hpc]) (ranks_at _ _ _) rfl
        · obtain ⟨rfl, rfl, rfl⟩ := by simpa using hstep
          exact hinv.observe hrank (by rw [hpc]; rfl) (by simp [hpc])
            (hinv.bodies.started (by rw [Progress.inBody, hpc]; rfl))
            (by simp) (by simp [RankPc.catching])
    | running blockId =>
        have hrunning : progress.inBody rank = some blockId := by
          rw [Progress.inBody, hpc]; rfl
        simp only [hpc] at hstep
        split at hstep
        next hthrows =>
          obtain ⟨rfl, rfl, rfl⟩ := by simpa using hstep
          refine hinv.observe hrank (by rw [hpc]; rfl) (by simp [hpc])
            (hinv.bodies.ended hrunning (.inr rfl)) ?_ ?_
          · rintro body - ⟨⟩
            exact ⟨hthrows, rfl, rfl⟩
          · rintro block ⟨⟩
            rfl
        next =>
          obtain ⟨rfl, rfl, rfl⟩ := by simpa using hstep
          exact hinv.observe hrank (by rw [hpc]; rfl) (by simp [hpc])
            (hinv.bodies.ended hrunning (.inl rfl)) (by simp)
            (by simp [RankPc.catching])
    | caught blockId =>
        simp only [hpc] at hstep
        obtain ⟨rfl, rfl, rfl⟩ := by simpa using hstep
        rw [Option.toList_none, List.append_nil]
        exact hinv.capture hrank hpc
    | ran blockId =>
        simp only [hpc] at hstep
        obtain ⟨rfl, rfl, rfl⟩ := by simpa using hstep
        rw [Option.toList_none, List.append_nil]
        exact hinv.claim (some blockId) hrank
          (by rw [hpc]; exact ⟨rfl, rfl⟩) (by simp [hpc])
    | returned => simp [hpc] at hstep
    | stamped => simp [hpc] at hstep

theorem call_of_stepRank {event : Event}
    (hstep : stepRank call dispatch progress captured rank =
      some (after, slot, some event)) :
    event.call = call ∧ ∀ outcome, event ≠ .left call outcome := by
  rw [stepRank] at hstep
  split at hstep
  next => simp at hstep
  next =>
    cases hpc : progress.ranks rank <;> simp only [hpc] at hstep
    all_goals try split at hstep
    all_goals
      first
      | (simp at hstep; done)
      | (obtain ⟨-, -, rfl⟩ := by simpa using hstep
         exact ⟨rfl, by simp⟩)

/-- When the join is through, no rank is in its runner any more. -/
theorem DispatchInv.joinedAll (hinv : DispatchInv trace call dispatch progress
      captured) (hzero : progress.ranks 0 = .returned)
    (hpending : progress.pending = ∅) (rank : ℕ) :
    (progress.ranks rank).body = none ∧
      (progress.ranks rank).catching = none := by
  rcases Nat.lt_or_ge rank dispatch.desc.participants with hrank | hrank
  · rcases Nat.eq_zero_or_pos rank with rfl | hpos
    · rw [hzero]; exact ⟨rfl, rfl⟩
    · rw [hinv.joined rank hpos hrank (by simp [hpending])]
      exact ⟨rfl, rfl⟩
  · rw [hinv.outside rank hrank]
    exact ⟨rfl, rfl⟩

/-- Where the rethrow is compiled out, nothing was captured. -/
theorem DispatchInv.nothrow {primitive : Primitive}
    (hinv : DispatchInv trace call dispatch progress captured)
    (hnothrow : primitive.slot0Nothrow dispatch = true) : captured = none := by
  have hnoexcept : dispatch.bodyNoexcept = true := by
    rw [Primitive.slot0Nothrow, Bool.and_eq_true] at hnothrow
    exact hnothrow.2
  by_contra hheld
  obtain ⟨body, hbody⟩ := Option.ne_none_iff_exists'.1 hheld
  obtain ⟨hcall, hmem⟩ := hinv.own body hbody
  have hthrows := (hinv.threw body hcall hmem).1
  rw [dispatch.noexcept_throws hnoexcept] at hthrows
  exact absurd hthrows (by simp)

/-! ## Inline calls -/

def InlinePc.body : InlinePc → Option ℕ
  | .running blockId => some blockId
  | _ => none

structure InlineInv (trace : List Event) (call : ℕ) (pc : InlinePc) :
    Prop where
  bodies : Balanced trace call (Function.update (fun _ => none) 0 pc.body)
  own : ∀ body, pc = .unwinding body →
    body.call = call ∧ .threw body ∈ trace
  threw : ∀ body, body.call = call → .threw body ∈ trace →
    pc = .unwinding body

theorem InlineInv.step {pc next : InlinePc} {job : InlineJob}
    {stopRequested : Bool} {event : Option Event}
    (hinv : InlineInv trace call pc)
    (hstep : stepInline call job stopRequested pc = some (next, event)) :
    InlineInv (trace ++ event.toList) call next := by
  cases pc with
  | next blockId =>
      simp only [stepInline] at hstep
      split at hstep
      next =>
        obtain ⟨rfl, rfl⟩ := by simpa using hstep
        refine ⟨?_, by simp, fun body hcall hmem => ?_⟩
        · have hbodies : Balanced (trace ++ [.started ⟨call, 0, blockId⟩]) call
              (Function.update (Function.update (fun _ => none) 0 none) 0
                (some blockId)) :=
            hinv.bodies.started (by simp [InlinePc.body])
          rwa [Function.update_idem] at hbodies
        · have hold := hinv.threw body hcall (by simpa using hmem)
          exact absurd hold (by simp)
      next => simp at hstep
  | running blockId =>
      have hnone : ∀ body, body.call = call → .threw body ∉ trace :=
        fun body hcall hmem => absurd (hinv.threw body hcall hmem) (by simp)
      have hends : ∀ event, event = .finished ⟨call, 0, blockId⟩ ∨
          event = .threw ⟨call, 0, blockId⟩ →
          Balanced (trace ++ [event]) call
            (Function.update (fun _ => none) 0 none) := by
        intro event hevent
        have hbodies : Balanced (trace ++ [event]) call
            (Function.update (Function.update (fun _ => none) 0
              (some blockId)) 0 none) :=
          hinv.bodies.ended (by simp [InlinePc.body]) hevent
        rwa [Function.update_idem] at hbodies
      simp only [stepInline] at hstep
      split at hstep
      all_goals obtain ⟨rfl, rfl⟩ := by simpa using hstep
      · refine ⟨?_, ?_, fun body hcall hmem => ?_⟩
        · exact hends _ (.inr rfl)
        · rintro body ⟨⟩
          exact ⟨rfl, by simp⟩
        · rcases List.mem_append.1 hmem with hold | hnew
          · exact absurd hold (hnone body hcall)
          · obtain rfl : body = ⟨call, 0, blockId⟩ := by simpa using hnew
            rfl
      · refine ⟨?_, by simp, fun body hcall hmem => ?_⟩
        · exact hends _ (.inl rfl)
        · exact absurd (by simpa using hmem) (hnone body hcall)
  | unwinding body => simp [stepInline] at hstep

theorem call_of_stepInline {pc next : InlinePc} {job : InlineJob}
    {stopRequested : Bool} {event : Event}
    (hstep : stepInline call job stopRequested pc = some (next, some event)) :
    event.call = call ∧ ∀ outcome, event ≠ .left call outcome := by
  cases pc <;> simp only [stepInline] at hstep
  all_goals try split at hstep
  all_goals
    first
    | (simp at hstep; done)
    | (obtain ⟨-, rfl⟩ := by simpa using hstep
       exact ⟨rfl, by simp⟩)

/-! ## Histories -/

/-- What holds where the thread is. -/
def PhaseInv (trace : List Event) (state : State) : Prop :=
  match state.phase with
  | .idle => ∀ descriptor, state.captured descriptor = none
  | .dispatching primitive dispatch progress =>
      DispatchInv trace state.current dispatch progress
          (state.captured primitive.descriptor) ∧
        ∀ descriptor, descriptor ≠ primitive.descriptor →
          state.captured descriptor = none
  | .inlining _ _ pc _ =>
      InlineInv trace state.current pc ∧
        ∀ descriptor, state.captured descriptor = none

structure HistoryInv (trace : List Event) (state : State) : Prop where
  begun : ∀ event ∈ trace, event.call < state.calls
  left : ∀ call outcome, .left call outcome ∈ trace →
    state.phase = .idle ∨ call < state.current
  active : state.phase = .idle ∨ 0 < state.calls
  phase : PhaseInv trace state

variable {before state : State} {primitive : Primitive} {outcome : Outcome}
variable {event : Event} {action : Action}

theorem endOutcome_ne_rethrew (fails : Bool) (body : Body) :
    endOutcome primitive fails ≠ .rethrew body := by
  rw [endOutcome]
  split <;> simp

/-- What `rethrowIfCaptured` leaves behind. -/
theorem leave_spec (fails : Bool)
    (hnothrow : primitive.slot0Nothrow dispatch = true →
      before.captured primitive.descriptor = none)
    (hothers : ∀ descriptor, descriptor ≠ primitive.descriptor →
      before.captured descriptor = none)
    (hleave : before.leave primitive dispatch fails = (state, outcome)) :
    (state.phase = .idle ∧ state.calls = before.calls ∧
      ∀ descriptor, state.captured descriptor = none) ∧
      ∀ body, outcome = .rethrew body ↔
        before.captured primitive.descriptor = some body := by
  rw [State.leave] at hleave
  have hquiet : before.captured primitive.descriptor = none →
      (before.setPhase .idle, endOutcome primitive fails) = (state, outcome) →
      (state.phase = .idle ∧ state.calls = before.calls ∧
        ∀ descriptor, state.captured descriptor = none) ∧
        ∀ body, outcome = .rethrew body ↔
          before.captured primitive.descriptor = some body := by
    rintro hnone ⟨⟩
    refine ⟨⟨rfl, rfl, fun descriptor => ?_⟩, fun body => ?_⟩
    · by_cases hsame : descriptor = primitive.descriptor
      · rw [hsame]; exact hnone
      · exact hothers descriptor hsame
    · rw [hnone]
      exact iff_of_false (endOutcome_ne_rethrew fails body) (by simp)
  split at hleave
  next helided => exact hquiet (hnothrow helided) hleave
  next =>
    split at hleave
    next body hcaptured =>
      cases hleave
      refine ⟨⟨rfl, rfl, fun descriptor => ?_⟩, fun other => ?_⟩
      · by_cases hsame : descriptor = primitive.descriptor
        · simp [hsame]
        · simpa [hsame] using hothers descriptor hsame
      · rw [hcaptured]
        simp
    next hcaptured => exact hquiet hcaptured hleave

theorem attributed_inner (hinv : HistoryInv trace before)
    (hbusy : before.phase ≠ .idle) (hcall : event.call = before.current)
    (hinner : ∀ outcome, event ≠ .left before.current outcome) :
    Attributed trace event := by
  have hleft : ∀ call outcome, event ≠ .left call outcome := by
    rintro call outcome rfl
    obtain rfl : call = before.current := hcall
    exact hinner outcome rfl
  refine ⟨fun outcome hmem => ?_, fun call outcome h => absurd h (hleft _ _),
    fun call body h => absurd h (hleft _ _),
    fun call outcome h => absurd h (hleft _ _)⟩
  exact (hinv.left _ _ hmem).elim hbusy (by omega)

theorem attributed_left (hinv : HistoryInv trace before)
    (hbusy : before.phase ≠ .idle)
    (hbodies : Balanced trace before.current fun _ => none)
    (hown : ∀ body, outcome = .rethrew body →
      body.call = before.current ∧ .threw body ∈ trace)
    (hthrew : ∀ body, body.call = before.current → .threw body ∈ trace →
      ∃ body, outcome = .rethrew body) :
    Attributed trace (.left before.current outcome) := by
  refine ⟨fun outcome hmem => ?_, ?_, ?_, ?_⟩
  · exact (hinv.left _ _ hmem).elim hbusy (lt_irrefl _)
  · rintro call _ ⟨⟩
    refine ⟨fun ⟨body, hbody⟩ => ⟨body, hown body hbody⟩, ?_⟩
    rintro ⟨body, hcall, hmem⟩
    exact hthrew body hcall hmem
  · rintro call body ⟨⟩
    exact hown body rfl
  · rintro call _ ⟨⟩ body hcall
    simpa using hbodies body hcall

theorem HistoryInv.inner (hinv : HistoryInv trace before)
    {event : Option Event} (hbusy : before.phase ≠ .idle)
    (hcalls : state.calls = before.calls)
    (hevent : ∀ emitted, event = some emitted →
      emitted.call = before.current ∧
        ∀ outcome, emitted ≠ .left before.current outcome)
    (hphase : PhaseInv (trace ++ event.toList) state) :
    HistoryInv (trace ++ event.toList) state ∧
      ∀ emitted, event = some emitted → Attributed trace emitted := by
  have hactive : 0 < before.calls := hinv.active.resolve_left hbusy
  have hcurrent : state.current = before.current := by
    rw [State.current, hcalls]; rfl
  refine ⟨⟨fun emitted hmem => ?_, fun call outcome hmem => .inr ?_,
    .inr (hcalls ▸ hactive), hphase⟩, fun emitted hemitted =>
    attributed_inner hinv hbusy (hevent emitted hemitted).1
      (hevent emitted hemitted).2⟩
  · rw [hcalls]
    rcases List.mem_append.1 hmem with hold | hnew
    · exact hinv.begun emitted hold
    · have := (hevent emitted (by simpa using hnew)).1
      rw [State.current] at this
      omega
  · rw [hcurrent]
    rcases List.mem_append.1 hmem with hold | hnew
    · exact (hinv.left call outcome hold).resolve_left hbusy
    · obtain ⟨hcall, hinner⟩ := hevent _ (by simpa using hnew)
      exact absurd (by rw [show call = before.current from hcall])
        (hinner outcome)

theorem HistoryInv.leave (hinv : HistoryInv trace before)
    (hbusy : before.phase ≠ .idle) (hidle : state.phase = .idle)
    (hcalls : state.calls = before.calls)
    (hcleared : ∀ descriptor, state.captured descriptor = none) :
    HistoryInv (trace ++ [.left before.current outcome]) state := by
  have hactive : 0 < before.calls := hinv.active.resolve_left hbusy
  refine ⟨fun emitted hmem => ?_, fun _ _ _ => .inl hidle, .inl hidle, ?_⟩
  · rw [hcalls]
    rcases List.mem_append.1 hmem with hold | hnew
    · exact hinv.begun emitted hold
    · obtain rfl := List.mem_singleton.1 hnew
      exact Nat.sub_lt hactive one_pos
  · rw [PhaseInv, hidle]
    exact hcleared

theorem HistoryInv.begin (hinv : HistoryInv trace before) (call : Call)
    (hidle : before.phase = .idle) :
    HistoryInv trace (before.begin call) := by
  have hnew : ∀ event ∈ trace, event.call ≠ before.calls :=
    fun event hmem => (hinv.begun event hmem).ne
  have hcleared : ∀ descriptor, before.captured descriptor = none := by
    have hphase := hinv.phase
    rwa [PhaseInv, hidle] at hphase
  have hfresh : ∀ descriptor,
      (before.begin call).captured descriptor = none := by
    intro descriptor
    simp only [State.begin]
    split
    · by_cases hstack : descriptor = .stack
      · simp [hstack]
      · simp [hstack, hcleared]
    · exact hcleared descriptor
  have hunthrown : ∀ body, body.call = before.calls → .threw body ∉ trace :=
    fun body hcall hmem => hnew _ hmem hcall
  refine ⟨fun event hmem => (hinv.begun event hmem).trans
    (Nat.lt_succ_self _), fun other outcome hmem => .inr ?_,
    .inr (Nat.succ_pos _), ?_⟩
  · exact hinv.begun _ hmem
  · cases hjob : call.job with
    | dispatched dispatch stale =>
        have hphase : (before.begin call).phase = .dispatching call.primitive
            dispatch (beginProgress dispatch stale) := by
          simp only [State.begin, hjob]
        rw [PhaseInv, hphase]
        refine ⟨⟨.of_new hnew, fun _ _ => rfl, fun body hbody => ?_,
          fun body hcall hmem => absurd hmem (hunthrown body hcall),
          fun _ _ hcatching => absurd hcatching (by
            simp [beginProgress, RankPc.catching]),
          fun slot hpos hslot hseen => ?_⟩, fun descriptor _ =>
            hfresh descriptor⟩
        · rw [hfresh] at hbody
          exact absurd hbody (by simp)
        · exact absurd (Finset.mem_Ico.2 ⟨hpos, hslot⟩) hseen
    | inline job =>
        have hphase : (before.begin call).phase =
            .inlining call.primitive job (.next 0) false := by
          simp only [State.begin, hjob]
        rw [PhaseInv, hphase]
        refine ⟨⟨?_, by simp, fun body hcall hmem =>
          absurd hmem (hunthrown body hcall)⟩, hfresh⟩
        have hidleRanks : Function.update (fun _ => none) 0
            (InlinePc.next 0).body = fun _ : ℕ => none :=
          Function.update_eq_self 0 _
        rw [hidleRanks]
        exact .of_new hnew

/-- A dispatch under way takes a step. -/
theorem HistoryInv.dispatching (hinv : HistoryInv trace before)
    {event : Option Event}
    (hbefore : before.phase = .dispatching primitive dispatch progress)
    (hstep : thread.step before action = some (state, event)) :
    HistoryInv (trace ++ event.toList) state ∧
      ∀ emitted, event = some emitted → Attributed trace emitted := by
  have hbusy : before.phase ≠ .idle := by simp [hbefore]
  have hphase := hinv.phase
  rw [PhaseInv, hbefore] at hphase
  obtain ⟨hdispatch, hothers⟩ := hphase
  cases action with
  | begin call => simp [thread, hbefore] at hstep
  | stop =>
      simp only [thread, hbefore] at hstep
      obtain ⟨rfl, rfl⟩ := by simpa using hstep
      refine hinv.inner hbusy rfl (by simp) ?_
      rw [Option.toList_none, List.append_nil]
      exact ⟨⟨hdispatch.bodies, hdispatch.outside, hdispatch.own,
        hdispatch.threw, hdispatch.caught, hdispatch.joined⟩, hothers⟩
  | rank rank =>
      simp only [thread, hbefore] at hstep
      obtain ⟨⟨after, slot, emitted⟩, hrank, heq⟩ :=
        Option.map_eq_some_iff.1 hstep
      obtain ⟨rfl, rfl⟩ := by simpa using heq
      refine hinv.inner hbusy rfl (fun event hevent => ?_) ⟨?_, ?_⟩
      · subst hevent
        exact call_of_stepRank hrank
      · show DispatchInv _ before.current dispatch after
          (Function.update before.captured primitive.descriptor slot
            primitive.descriptor)
        rw [Function.update_self]
        exact hdispatch.step hrank
      · intro descriptor hother
        show Function.update before.captured _ slot descriptor = none
        rw [Function.update_of_ne hother]
        exact hothers descriptor hother
  | stamp slot =>
      simp only [thread, hbefore] at hstep
      split at hstep
      next hready =>
        obtain ⟨rfl, rfl⟩ := by simpa using hstep
        refine hinv.inner hbusy rfl (by simp) ?_
        rw [Option.toList_none, List.append_nil]
        refine ⟨?_, hothers⟩
        have hslot : slot < dispatch.desc.participants := by
          by_contra hout
          have hentered := hdispatch.outside slot (Nat.le_of_not_lt hout)
          rw [hready.2] at hentered
          exact absurd hentered (by simp)
        exact hdispatch.move hslot (by rw [hready.2]; exact ⟨rfl, rfl⟩)
          ⟨rfl, rfl⟩ (by simp [hready.2]) (ranks_at _ _ _) rfl
      next => simp at hstep
  | join slot =>
      simp only [thread, hbefore] at hstep
      split at hstep
      next hseen =>
        obtain ⟨rfl, rfl⟩ := by simpa using hstep
        refine hinv.inner hbusy rfl (by simp) ?_
        rw [Option.toList_none, List.append_nil]
        refine ⟨⟨hdispatch.bodies, hdispatch.outside, hdispatch.own,
          hdispatch.threw, hdispatch.caught,
          fun other hpos hother hgone => ?_⟩, hothers⟩
        by_cases hsame : other = slot
        · rw [hsame]; exact hseen.2
        · exact hdispatch.joined other hpos hother fun hmem =>
            hgone (Finset.mem_erase.2 ⟨hsame, hmem⟩)
      next => simp at hstep
  | leave fails =>
      simp only [thread, hbefore] at hstep
      split at hstep
      next hready =>
        cases hleave : before.leave primitive dispatch fails with
        | mk after outcome =>
            rw [hleave] at hstep
            obtain ⟨rfl, rfl⟩ := by simpa using hstep
            have hquiet := hdispatch.joinedAll hready.1 hready.2
            have hbodies : Balanced trace before.current fun _ => none := by
              have hnone : progress.inBody = fun _ => none :=
                funext fun rank => (hquiet rank).1
              exact hnone ▸ hdispatch.bodies
            obtain ⟨⟨hidle, hcalls, hcleared⟩, houtcome⟩ :=
              leave_spec fails hdispatch.nothrow hothers hleave
            refine ⟨hinv.leave hbusy hidle hcalls hcleared, ?_⟩
            rintro _ ⟨⟩
            refine attributed_left hinv hbusy hbodies (fun body hbody =>
              hdispatch.own body ((houtcome body).1 hbody))
              fun body hcall hmem => ?_
            have hheld := (hdispatch.threw body hcall hmem).2.resolve_right
              (by rw [(hquiet body.rank).2]; simp)
            obtain ⟨first, hfirst⟩ := Option.ne_none_iff_exists'.1 hheld
            exact ⟨first, (houtcome first).2 hfirst⟩
      next => simp at hstep
  | inline => simp [thread, hbefore] at hstep

/-- An inline call takes a step. -/
theorem HistoryInv.inlining (hinv : HistoryInv trace before)
    {event : Option Event} {job : InlineJob} {pc : InlinePc}
    {stopRequested : Bool}
    (hbefore : before.phase = .inlining primitive job pc stopRequested)
    (hstep : thread.step before action = some (state, event)) :
    HistoryInv (trace ++ event.toList) state ∧
      ∀ emitted, event = some emitted → Attributed trace emitted := by
  have hbusy : before.phase ≠ .idle := by simp [hbefore]
  have hphase := hinv.phase
  rw [PhaseInv, hbefore] at hphase
  obtain ⟨hinline, hcleared⟩ := hphase
  cases action with
  | stop =>
      simp only [thread, hbefore] at hstep
      obtain ⟨rfl, rfl⟩ := by simpa using hstep
      refine hinv.inner hbusy rfl (by simp) ?_
      rw [Option.toList_none, List.append_nil]
      exact ⟨hinline, hcleared⟩
  | inline =>
      simp only [thread, hbefore] at hstep
      obtain ⟨⟨next, emitted⟩, hnext, heq⟩ :=
        Option.map_eq_some_iff.1 hstep
      obtain ⟨rfl, rfl⟩ := by simpa using heq
      refine hinv.inner hbusy rfl (fun event hevent => ?_)
        ⟨hinline.step hnext, hcleared⟩
      subst hevent
      exact call_of_stepInline hnext
  | leave fails =>
      simp only [thread, hbefore] at hstep
      obtain ⟨outcome, hleave, heq⟩ := Option.map_eq_some_iff.1 hstep
      obtain ⟨rfl, rfl⟩ := by simpa using heq
      refine ⟨hinv.leave hbusy rfl rfl hcleared, ?_⟩
      rintro _ ⟨⟩
      have hbodies : pc.body = none → Balanced trace before.current
          fun _ => none := by
        intro hnone
        have hidleRanks : Function.update (fun _ => none) 0 pc.body =
            fun _ : ℕ => none := by
          rw [hnone]
          exact Function.update_eq_self 0 _
        exact hidleRanks ▸ hinline.bodies
      cases pc with
      | next blockId =>
          simp only [leaveInline] at hleave
          split at hleave
          next => simp at hleave
          next =>
            obtain rfl := by simpa using hleave
            exact attributed_left hinv hbusy (hbodies rfl)
              (fun body hbody => absurd hbody (endOutcome_ne_rethrew _ _))
              fun body hcall hmem =>
                absurd (hinline.threw body hcall hmem) (by simp)
      | running blockId => simp [leaveInline] at hleave
      | unwinding body =>
          obtain rfl : _ = outcome := by simpa [leaveInline] using hleave
          refine attributed_left hinv hbusy (hbodies rfl) ?_
            fun _ _ _ => ⟨body, rfl⟩
          rintro _ ⟨⟩
          exact hinline.own body rfl
  | begin | rank | stamp | join => simp [thread, hbefore] at hstep

theorem HistoryInv.step (hinv : HistoryInv trace before)
    {event : Option Event}
    (hstep : thread.step before action = some (state, event)) :
    HistoryInv (trace ++ event.toList) state ∧
      ∀ emitted, event = some emitted → Attributed trace emitted := by
  cases hphase : before.phase with
  | dispatching primitive dispatch progress =>
      exact hinv.dispatching hphase hstep
  | inlining primitive job pc stopRequested =>
      exact hinv.inlining hphase hstep
  | idle =>
      cases action with
      | begin call =>
          simp only [thread, hphase] at hstep
          obtain ⟨rfl, rfl⟩ := by simpa using hstep
          rw [Option.toList_none, List.append_nil]
          exact ⟨hinv.begin call hphase, nofun⟩
      | stop | rank | stamp | join | leave | inline =>
          simp [thread, hphase] at hstep

theorem historyInv_start : HistoryInv [] start :=
  ⟨nofun, nofun, .inl rfl, fun _ => rfl⟩

theorem historyInv_of_run (run : Reaches thread start trace state) :
    HistoryInv trace state :=
  run.invariant HistoryInv historyInv_start fun hinv _ hstep =>
    (hinv.step hstep).1

end Facts

/-- In every history of calls each exception that leaves a call is one of its
own bodies', and nothing is left in a descriptor. -/
theorem historySound_of_run {trace : List Event} {state : State}
    (run : Reaches thread start trace state) : HistorySound trace state where
  attributed := run.at_event HistoryInv Attributed historyInv_of_run
    fun hinv _ hstep => (hinv.step hstep).2 _ rfl
  cleared := fun hidle => by
    have hphase := (historyInv_of_run run).phase
    rwa [PhaseInv, hidle] at hphase

/-- Two blocks for two ranks. -/
def twoBlocks : JobDescriptor where
  first := 0
  last := 2
  chunk := 1
  blockCount := 2
  participants := 2
  participants_pos := Nat.zero_lt_two

/-- The worker's block throws. -/
def workerThrows : Dispatch where
  desc := twoBlocks
  share := .balanced .staticUniform fun _ => .typedWorkerEntry
  cancellationActive := false
  bodyNoexcept := false
  throws := fun blockId => blockId == 1
  noexcept_throws := Bool.noConfusion

/-- A `noexcept` body: its call never looks at the exception slot. -/
def noneThrows : Dispatch where
  desc := twoBlocks
  share := .balanced .staticUniform fun _ => .typedWorkerEntry
  cancellationActive := false
  bodyNoexcept := true
  throws := fun _ => false
  noexcept_throws := fun _ _ => rfl

/-- A call that rethrows, and one behind it on the same descriptor. -/
theorem historySound_workerThrows :
    ∃ trace state,
      (.left 0 (.rethrew ⟨0, 1, 1⟩) ∈ trace ∧ .left 1 .returned ∈ trace) ∧
        HistorySound trace state := by
  obtain ⟨trace, state, run, hcheck⟩ : ∃ trace state,
      Reaches thread start trace state ∧
        (decide (.left 0 (.rethrew ⟨0, 1, 1⟩) ∈ trace) &&
          decide (.left 1 .returned ∈ trace)) = true :=
    reaches_of_check thread start
      ([.begin ⟨.parallelFor, .dispatched workerThrows 0⟩, .rank 0, .rank 1,
          .rank 1, .rank 0, .rank 1, .rank 1, .rank 0, .rank 0, .stamp 1,
          .join 1, .leave false,
          .begin ⟨.parallelFor, .dispatched noneThrows 0⟩] ++
        List.replicate 4 (.rank 1) ++ List.replicate 4 (.rank 0) ++
        [.stamp 1, .join 1, .leave false])
      (fun trace _ => decide (.left 0 (.rethrew ⟨0, 1, 1⟩) ∈ trace) &&
        decide (.left 1 .returned ∈ trace)) (by decide +kernel)
  exact ⟨trace, state, by simpa using hcheck, historySound_of_run run⟩

end Citor.ExceptionAttribution
