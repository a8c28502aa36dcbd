import Citor.Dispatch.ReentrantCalls

/-!
# Stacks and contexts of nested calls

The invariant ties a thread's context to its stack: below a running share the
flag is up, and `saved` is what the stack says without the share.  A frame
that goes for a gate therefore has no share below it, and every lease below it
is one whose closing callback is running.
-/

namespace Citor.Reentrancy

open Citor.Interleaving

/-! ## Inside a share nothing is dispatched -/

section Routes

variable (shape : PoolShape) (pool : ℕ) {context : ThreadContext}

end Routes

/-! ## What a stack looks like -/

/-- The frames of a primitive's own code. -/
def Frame.inPrimitive : Frame → Bool
  | .callback _ | .share .. => false
  | _ => true

/-- The frames of a call that dispatches. -/
def Frame.dispatching : Frame → Bool
  | .lease .. | .gate .. | .leased .. => true
  | _ => false

/-- A lease that has acquired the gate of `pool`. -/
def Frame.holds (pool : ℕ) : Frame → Bool
  | .leased _ own false _ => decide (own = pool)
  | _ => false

/-- The context that a share's scope installs. -/
def Frame.installs : Frame → Option ThreadContext
  | .share _ pool slot (some _) => some ⟨slot, true, some pool⟩
  | _ => none

/-- The context that a stack accounts for. -/
def contextOf (thread : ThreadId) : List Frame → ThreadContext
  | [] => thread.home
  | frame :: rest => frame.installs.getD (contextOf thread rest)

def NoShare (stack : List Frame) : Prop :=
  ∀ frame ∈ stack, frame.isShare = false

inductive Stacked (thread : ThreadId) : List Frame → Prop
  | base : Stacked thread []
  | callback {frame : Frame} {rest : List Frame} {callback : Callback}
      (hrest : Stacked thread (frame :: rest))
      (hcalls : callback ∈ frame.callbacks) :
      Stacked thread (.callback callback :: frame :: rest)
  | primitive {frame : Frame} {rest : List Frame}
      (hrest : Stacked thread rest)
      (huser : inUserCode thread rest = true)
      (hframe : frame.inPrimitive = true)
      (hapart : frame.dispatching = true → NoShare rest) :
      Stacked thread (frame :: rest)
  | installed {call leasedCall : Call} {pool slot : ℕ} {gateSkipped : Bool}
      {rest : List Frame}
      (hrest : Stacked thread
        (.leased leasedCall pool gateSkipped .joining :: rest)) :
      Stacked thread
        (.share call pool slot (some (contextOf thread rest)) ::
          .leased leasedCall pool gateSkipped .joining :: rest)
  | own {call : Call} {pool slot : ℕ}
      (hworker : thread.home.insidePoolWorker = true) :
      Stacked thread [.share call pool slot none]

section Stacks

variable {thread : ThreadId} {stack rest : List Frame} {frame : Frame}

theorem installs_of_inPrimitive (hframe : frame.inPrimitive = true) :
    frame.installs = none := by
  cases frame <;> simp_all [Frame.inPrimitive, Frame.installs]

theorem isShare_of_inPrimitive (hframe : frame.inPrimitive = true) :
    frame.isShare = false := by
  cases frame <;> simp_all [Frame.inPrimitive, Frame.isShare]

theorem contextOf_primitive (hframe : frame.inPrimitive = true) :
    contextOf thread (frame :: rest) = contextOf thread rest := by
  simp [contextOf, installs_of_inPrimitive hframe]

@[simp]
theorem contextOf_callback (callback : Callback) :
    contextOf thread (.callback callback :: rest) = contextOf thread rest :=
  rfl

/-- A share anywhere on the stack has the flag up. -/
theorem Stacked.inside (hstacked : Stacked thread stack)
    (hshare : ∃ frame ∈ stack, frame.isShare = true) :
    (contextOf thread stack).insidePoolWorker = true := by
  induction hstacked with
  | base => simp at hshare
  | callback _ _ ih =>
      rw [contextOf_callback]
      exact ih (by simpa [Frame.isShare] using hshare)
  | primitive _ _ hframe _ ih =>
      rw [contextOf_primitive hframe]
      exact ih (by simpa [isShare_of_inPrimitive hframe] using hshare)
  | installed _ _ => rfl
  | own hworker => exact hworker

/-- Without a share on the stack, every lease below the top is at its closing
callback. -/
theorem Stacked.closing {call : Call} {pool : ℕ} {gateSkipped : Bool}
    {stage : SectionStage} (hstacked : Stacked thread (frame :: rest))
    (hapart : NoShare (frame :: rest))
    (hmem : .leased call pool gateSkipped stage ∈ rest) :
    stage = .closing := by
  generalize hstack : frame :: rest = stack at hstacked
  induction hstacked generalizing frame rest with
  | base => cases hstack
  | callback hrest hcalls ih =>
      obtain ⟨rfl, rfl⟩ := List.cons.inj hstack
      rcases List.mem_cons.1 hmem with rfl | hbelow
      · cases stage <;> simp_all [Frame.callbacks]
      · exact ih (fun other hother => hapart other (.tail _ hother)) hbelow rfl
  | primitive hrest huser hframe _ ih =>
      obtain ⟨rfl, rfl⟩ := List.cons.inj hstack
      cases rest with
      | nil => simp at hmem
      | cons under deeper =>
          rcases List.mem_cons.1 hmem with rfl | hbelow
          · cases thread <;> simp [inUserCode] at huser
          · exact ih (fun other hother => hapart other (.tail _ hother))
              hbelow rfl
  | installed _ _ =>
      obtain ⟨rfl, rfl⟩ := List.cons.inj hstack
      simp [NoShare, Frame.isShare] at hapart
  | own _ =>
      obtain ⟨rfl, rfl⟩ := List.cons.inj hstack
      simp at hmem

/-- What is below the frame of a primitive. -/
theorem Stacked.of_primitive (hframe : frame.inPrimitive = true)
    (hstacked : Stacked thread (frame :: rest)) :
    Stacked thread rest ∧ inUserCode thread rest = true ∧
      (frame.dispatching = true → NoShare rest) := by
  cases hstacked with
  | callback _ _ => simp [Frame.inPrimitive] at hframe
  | primitive hrest huser _ hapart => exact ⟨hrest, huser, hapart⟩
  | installed _ => simp [Frame.inPrimitive] at hframe
  | own _ => simp [Frame.inPrimitive] at hframe

/-- The frames of one dispatching call follow each other on top. -/
theorem Stacked.swap {next : Frame}
    (hstacked : Stacked thread (frame :: rest))
    (hframe : frame.dispatching = true) (hnext : next.dispatching = true) :
    Stacked thread (next :: rest) := by
  have hprimitive : ∀ {frame : Frame}, frame.dispatching = true →
      frame.inPrimitive = true := by
    intro frame h
    cases frame <;> simp_all [Frame.dispatching, Frame.inPrimitive]
  obtain ⟨hrest, huser, hapart⟩ := hstacked.of_primitive (hprimitive hframe)
  exact .primitive hrest huser (hprimitive hnext) fun _ => hapart hframe

end Stacks

/-! ## The invariant -/

/-- What the stack of a thread says about its context and its gates. -/
structure Own (state : State) (thread : ThreadId) : Prop where
  stacked : Stacked thread (state.stack thread)
  context : state.context thread = contextOf thread (state.stack thread)
  /-- A thread holds a gate through exactly one lease. -/
  gates : ∀ pool, (state.stack thread).countP (Frame.holds pool) =
    if state.dispatchMutex pool = some thread then 1 else 0

section OwnSteps

variable {pools : ℕ → PoolShape} {before after : State} {thread : ThreadId}

/-- A step that neither takes nor gives back a gate or a context. -/
theorem Own.setStack {stack : List Frame} (hown : Own before thread)
    (hstacked : Stacked thread stack)
    (hcontext : contextOf thread stack =
      contextOf thread (before.stack thread))
    (hcount : ∀ pool, stack.countP (Frame.holds pool) =
      (before.stack thread).countP (Frame.holds pool)) :
    Own (before.setStack thread stack) thread := by
  have hstack : (before.setStack thread stack).stack thread = stack :=
    Function.update_self ..
  refine ⟨hstack.symm ▸ hstacked, ?_, ?_⟩
  · rw [hstack, hcontext]
    exact hown.context
  · intro pool
    rw [hstack, hcount pool]
    exact hown.gates pool

theorem Own.setJob (hown : Own before thread) (pool : ℕ) (job : Option Job) :
    Own (before.setJob pool job) thread :=
  ⟨hown.stacked, hown.context, hown.gates⟩

theorem Own.pop {frame : Frame} {rest : List Frame} (hown : Own before thread)
    (hstack : before.stack thread = frame :: rest)
    (hframe : frame.inPrimitive = true)
    (hholds : ∀ pool, frame.holds pool = false) :
    Own (before.setStack thread rest) thread := by
  have hstacked := hown.stacked
  rw [hstack] at hstacked
  refine hown.setStack (hstacked.of_primitive hframe).1 ?_ ?_
  · rw [hstack, contextOf_primitive hframe]
  · intro pool
    simp [hstack, hholds]

/-- The frame of a dispatching call becomes the next one of that call. -/
theorem Own.swap {frame next : Frame} {rest : List Frame}
    (hown : Own before thread)
    (hstack : before.stack thread = frame :: rest)
    (hframe : frame.dispatching = true) (hnext : next.dispatching = true)
    (hholds : ∀ pool, next.holds pool = frame.holds pool) :
    Own (before.setStack thread (next :: rest)) thread := by
  have hinstalls : ∀ {frame : Frame}, frame.dispatching = true →
      contextOf thread (frame :: rest) = contextOf thread rest := by
    intro frame h
    cases frame <;> first | rfl | simp [Frame.dispatching] at h
  have hstacked := hown.stacked
  rw [hstack] at hstacked
  refine hown.setStack (hstacked.swap hframe hnext) ?_ ?_
  · rw [hstack, hinstalls hframe, hinstalls hnext]
  · intro pool
    simp [hstack, List.countP_cons, hholds]

/-- The holder of a lease that did not skip the gate owns the mutex. -/
theorem Own.owner {call : Call} {pool : ℕ} {stage : SectionStage}
    (hown : Own before thread)
    (hmem : .leased call pool false stage ∈ before.stack thread) :
    before.dispatchMutex pool = some thread := by
  have hone := hown.gates pool
  by_contra hother
  rw [if_neg hother, List.countP_eq_zero] at hone
  exact hone _ hmem (by simp [Frame.holds])

end OwnSteps

/-! ## A step and the other threads -/

def Action.thread : Action → ThreadId
  | .call thread .. | .engage thread .. | .disengage thread ..
  | .invoke thread .. | .leaveCallback thread | .finish thread
  | .construct thread | .acquire thread | .publish thread
  | .takeShare thread .. | .leaveShare thread | .join thread
  | .release thread => thread

/-- What a step of another thread leaves alone. -/
structure Untouched (thread : ThreadId) (before after : State) : Prop where
  stack : after.stack thread = before.stack thread
  context : after.context thread = before.context thread
  gates : ∀ pool, after.dispatchMutex pool = some thread ↔
    before.dispatchMutex pool = some thread

section OtherSteps

variable {pools : ℕ → PoolShape} {before after : State} {actor : ThreadId}
variable {thread : ThreadId}

theorem Untouched.setJob (huntouched : Untouched thread before after)
    (pool : ℕ) (job : Option Job) :
    Untouched thread before (after.setJob pool job) :=
  ⟨huntouched.stack, huntouched.context, huntouched.gates⟩

end OtherSteps

end Citor.Reentrancy
