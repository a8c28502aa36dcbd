import Citor.Engine.PriorityGate

/-!
# The dispatch gate and its low-latency bypass

Threads call dispatching primitives on one pool and create and destroy
`LowLatencyGuard` objects on any pool.  Each call takes a `DispatchLease`: a
thread whose thread-local owner pointer names the pool skips the gate while
the pool's `hotSpinDepth` is not zero, everybody else goes to the priority
gate.  A program counter stands in front of the next atomic operation; the
owner pointer is thread-local, so reading or writing it is no step of its own.
-/

namespace Citor.DispatchGate

open Citor.Interleaving
open Citor.PriorityGate (Pc Priority Moves MutexHeld)

/-- Where a thread's `DispatchLease` stands. -/
inductive LeasePc
  /-- No call, or one that has gone to the gate. -/
  | idle
  /-- About to load `hotSpinDepth`. -/
  | probe (priority : Priority)
  /-- Past the gate: publishing, participating or joining. -/
  | skipped
  deriving DecidableEq, Repr

/-- A `LowLatencyGuard`: its pool and the owner pointer it saved. -/
structure Guard where
  pool : ℕ
  prevOwner : Option ℕ
  deriving DecidableEq, Repr

/-- Where a thread stands in a guard's constructor or destructor. -/
inductive GuardPc
  | idle
  /-- The owner pointer is stored; about to raise `hotSpinDepth`. -/
  | raise (guard : Guard)
  /-- Waking the workers and waiting for their acknowledgements. -/
  | awaitAcks (guard : Guard)
  /-- `hotSpinDepth` is lowered; about to restore the owner pointer. -/
  | restore (guard : Guard)
  deriving DecidableEq, Repr

structure State where
  lease : ℕ → LeasePc
  /-- The gate with the calls that have gone to it. -/
  gate : PriorityGate.State
  guardOp : ℕ → GuardPc
  /-- `lowLatencyOwnerPoolTls` of each thread. -/
  lowLatencyOwner : ℕ → Option ℕ
  /-- The guards that are alive. -/
  guards : List Guard
  hotSpinDepth : ℕ

inductive Action
  /-- A thread calls a dispatching primitive on the pool. -/
  | dispatch (thread : ℕ) (priority : Priority)
  /-- The next atomic operation of a thread's call. -/
  | advance (thread : ℕ)
  /-- A `try_lock` that fails although the mutex may be free. -/
  | failTryLock (thread : ℕ)
  /-- A background caller reads both counters again. -/
  | respin (thread : ℕ)
  /-- A thread constructs a guard on some pool. -/
  | engage (thread pool : ℕ)
  /-- A thread destroys one of the guards that are alive. -/
  | disengage (thread index : ℕ)
  /-- The next step of a guard's constructor or destructor. -/
  | advanceGuard (thread : ℕ)
  deriving DecidableEq, Repr

def State.setLease (state : State) (thread : ℕ) (pc : LeasePc) : State :=
  { state with lease := Function.update state.lease thread pc }

def State.setGuardOp (state : State) (thread : ℕ) (pc : GuardPc) : State :=
  { state with guardOp := Function.update state.guardOp thread pc }

def State.setOwner (state : State) (thread : ℕ) (owner : Option ℕ) : State :=
  { state with
    lowLatencyOwner := Function.update state.lowLatencyOwner thread owner }

/-- A step of the gate, which serves any number of threads. -/
def State.stepGate (state : State) (action : PriorityGate.Action) :
    Option State :=
  ((PriorityGate.gate (action.thread + 1)).step state.gate action).map
    fun step => { state with gate := step.1 }

/-- One atomic operation of a thread's call on `pool`. -/
def stepCall (pool : ℕ) (state : State) (thread : ℕ) : Option State :=
  match state.lease thread with
  | .probe priority =>
      if state.hotSpinDepth ≠ 0 ∧ state.lowLatencyOwner thread = some pool then
        some (state.setLease thread .skipped)
      else (state.setLease thread .idle).stepGate (.acquire thread priority)
  | .skipped => some (state.setLease thread .idle)
  | .idle => state.stepGate (.advance thread)

/-- One step of a guard's constructor or destructor.  Only guards on `pool`
touch its `hotSpinDepth`. -/
def stepGuard (pool : ℕ) (state : State) (thread : ℕ) : Option State :=
  match state.guardOp thread with
  | .idle => none
  | .raise guard =>
      some ({ state with
        hotSpinDepth :=
          if guard.pool = pool then state.hotSpinDepth + 1
          else state.hotSpinDepth }.setGuardOp thread (.awaitAcks guard))
  | .awaitAcks guard =>
      some ({ state with guards := state.guards ++ [guard] }.setGuardOp
        thread .idle)
  | .restore guard =>
      some ((state.setOwner thread guard.prevOwner).setGuardOp thread .idle)

def LeasePc.probes : LeasePc → Bool
  | .probe _ => true
  | _ => false

/-- Whether a thread is in a dispatching call. -/
def State.calling (state : State) (thread : ℕ) : Bool :=
  !(state.lease thread = .idle && state.gate.call thread = .idle)

/-- Whether a thread runs user code, where it may call and handle guards. -/
def State.runsUserCode (state : State) (thread : ℕ) : Bool :=
  state.guardOp thread = .idle && !(state.lease thread).probes &&
    !(state.gate.call thread).acquiring

/-- The gate of `pool` as a machine; it emits nothing. -/
def gate (pool : ℕ) : Machine State Action Empty where
  step state
    | .dispatch thread priority =>
        if state.calling thread = false ∧ state.guardOp thread = .idle then
          some (state.setLease thread (.probe priority), none)
        else none
    | .advance thread =>
        if state.guardOp thread = .idle then
          (stepCall pool state thread).map fun after => (after, none)
        else none
    | .failTryLock thread =>
        (state.stepGate (.failTryLock thread)).map fun after => (after, none)
    | .respin thread =>
        (state.stepGate (.respin thread)).map fun after => (after, none)
    | .engage thread target =>
        if state.runsUserCode thread then
          some ((state.setOwner thread (some target)).setGuardOp thread
            (.raise ⟨target, state.lowLatencyOwner thread⟩), none)
        else none
    | .disengage thread index =>
        if state.runsUserCode thread then
          match state.guards[index]? with
          | none => none
          | some guard =>
              some ({ state with
                guards := state.guards.eraseIdx index
                hotSpinDepth :=
                  if guard.pool = pool then state.hotSpinDepth - 1
                  else state.hotSpinDepth }.setGuardOp thread (.restore guard),
                none)
        else none
    | .advanceGuard thread =>
        (stepGuard pool state thread).map fun after => (after, none)

/-- Nobody calls, no guard is alive. -/
def start : State where
  lease := fun _ => .idle
  gate := PriorityGate.start
  guardOp := fun _ => .idle
  lowLatencyOwner := fun _ => none
  guards := []
  hotSpinDepth := 0

/-- Behind the last operation that acquires the gate. -/
def acquired : Pc → Bool
  | .returning _ | .holding _ => true
  | _ => false

/-- Whether a thread is inside the gated section. -/
def State.isInside (state : State) (thread : ℕ) : Bool :=
  state.lease thread = .skipped || acquired (state.gate.call thread)

/-- At most one thread is inside the gated section. -/
def SingleProducer (state : State) : Prop :=
  ∀ left right, state.isInside left = true → state.isInside right = true →
    left = right

/-! ## The failing schedule -/

/-- Thread 1 is inside through the mutex; thread 0 then constructs a guard and
dispatches past it. -/
theorem gate_not_singleProducer :
    ¬ ∀ pool trace state, Reaches (gate pool) start trace state →
      SingleProducer state := by
  intro hclaim
  obtain ⟨trace, state, run, hboth⟩ :=
    reaches_of_check (gate 0) start
      [.dispatch 1 .throughput, .advance 1, .advance 1, .advance 1, .advance 1,
        .advance 1, .engage 0 0, .advanceGuard 0, .advanceGuard 0,
        .dispatch 0 .throughput, .advance 0]
      (fun _ state => state.isInside 0 && state.isInside 1)
      (by decide)
  simp only [Bool.and_eq_true] at hboth
  have hsame := hclaim 0 trace state run 0 1 hboth.1 hboth.2
  exact absurd hsame (by decide)

/-! ## Callers that keep apart -/

/-- A call that has taken the bypass or, its thread owning the pool, may take
it next. -/
def State.bypassing (pool : ℕ) (state : State) (thread : ℕ) : Prop :=
  ((state.lease thread).probes = true ∧
      state.lowLatencyOwner thread = some pool) ∨
    state.lease thread = .skipped

/-- A call of a thread that owns the pool overlaps no other thread's call:
it is made while nobody else calls, and nobody calls while it lasts. -/
def OwnerCallsAlone (pool : ℕ) (state : State) : Action → Prop
  | .dispatch thread _ =>
      (state.lowLatencyOwner thread = some pool →
        ∀ other, other ≠ thread → state.calling other = false) ∧
      ∀ other, ¬ state.bypassing pool other
  | _ => True

/-! ## Who holds the mutex -/

section Gate

variable {pool : ℕ} {before after : State} {action : Action}
variable {event : Option Empty}

theorem stepGate_moves {inner : PriorityGate.Action}
    (hstep : before.stepGate inner = some after) :
    after = { before with gate := after.gate } ∧
      ∃ pc event, Moves before.gate after.gate inner.thread pc event := by
  obtain ⟨⟨moved, inner⟩, hgate, rfl⟩ := Option.map_eq_some_iff.mp hstep
  obtain ⟨-, pc, hmoves⟩ := PriorityGate.gate_moves hgate
  exact ⟨rfl, pc, inner, hmoves⟩

/-- Only `acquire` brings a thread to the gate. -/
theorem not_idle_of_stepGate {inner : PriorityGate.Action}
    (hgoes : ∀ thread priority, inner ≠ .acquire thread priority)
    (hstep : before.stepGate inner = some after) :
    before.gate.call inner.thread ≠ .idle := by
  intro hidle
  cases inner with
  | acquire thread priority => exact hgoes thread priority rfl
  | _ =>
      simp only [PriorityGate.Action.thread] at hidle
      simp [State.stepGate, PriorityGate.gate, PriorityGate.Action.thread,
        PriorityGate.stepCall, hidle] at hstep

/-- What happens outside of the gate's own code leaves the gate alone. -/
theorem gate_step_gate
    (hstep : (gate pool).step before action = some (after, event)) :
    after.gate = before.gate ∨
      ∃ thread pc event, Moves before.gate after.gate thread pc event := by
  cases action with
  | dispatch thread priority =>
      simp only [gate] at hstep
      split at hstep
      next =>
        obtain ⟨rfl, rfl⟩ := by simpa using hstep
        exact .inl rfl
      next => simp at hstep
  | advance thread =>
      simp only [gate] at hstep
      split at hstep
      next =>
        obtain ⟨moved, hmoved, hpair⟩ := Option.map_eq_some_iff.mp hstep
        obtain ⟨rfl, rfl⟩ := by simpa using hpair
        cases hpc : before.lease thread <;> simp only [stepCall, hpc] at hmoved
        case idle => exact .inr ⟨_, (stepGate_moves hmoved).2⟩
        case skipped =>
          obtain rfl := Option.some.inj hmoved
          exact .inl rfl
        case probe priority =>
          split at hmoved
          next =>
            obtain rfl := Option.some.inj hmoved
            exact .inl rfl
          next => exact .inr ⟨_, (stepGate_moves hmoved).2⟩
      next => simp at hstep
  | failTryLock thread =>
      obtain ⟨moved, hmoved, hpair⟩ := Option.map_eq_some_iff.mp hstep
      obtain ⟨rfl, rfl⟩ := by simpa using hpair
      exact .inr ⟨_, (stepGate_moves hmoved).2⟩
  | respin thread =>
      obtain ⟨moved, hmoved, hpair⟩ := Option.map_eq_some_iff.mp hstep
      obtain ⟨rfl, rfl⟩ := by simpa using hpair
      exact .inr ⟨_, (stepGate_moves hmoved).2⟩
  | engage thread target =>
      simp only [gate] at hstep
      split at hstep
      next =>
        obtain ⟨rfl, rfl⟩ := by simpa using hstep
        exact .inl rfl
      next => simp at hstep
  | disengage thread index =>
      simp only [gate] at hstep
      split at hstep
      next =>
        split at hstep
        next => simp at hstep
        next guard _ =>
          obtain ⟨rfl, rfl⟩ := by simpa using hstep
          exact .inl rfl
      next => simp at hstep
  | advanceGuard thread =>
      obtain ⟨moved, hmoved, hpair⟩ := Option.map_eq_some_iff.mp hstep
      obtain ⟨rfl, rfl⟩ := by simpa using hpair
      cases hpc : before.guardOp thread <;>
        simp only [stepGuard, hpc, Option.some.injEq, reduceCtorEq] at hmoved
      all_goals
        subst hmoved
        exact .inl rfl

theorem mutexHeld_step (hheld : MutexHeld (fun _ => True) before.gate)
    (hstep : (gate pool).step before action = some (after, event)) :
    MutexHeld (fun _ => True) after.gate := by
  rcases gate_step_gate hstep with hsame | ⟨thread, pc, inner, hmoves⟩
  · rwa [hsame]
  · exact hheld.moves trivial hmoves

theorem mutexHeld_start : MutexHeld (fun _ => True) start.gate := by
  intro thread _
  simp [start, PriorityGate.start, PriorityGate.Pc.holdsMutex]

end Gate

/-! ## Who is alone -/

/-- Next to a bypassing call nobody else is in a call, and guards are handled
outside of the probe. -/
structure Apart (pool : ℕ) (state : State) : Prop where
  alone : ∀ thread, state.bypassing pool thread →
    ∀ other, other ≠ thread → state.calling other = false
  guarding : ∀ thread, state.guardOp thread ≠ .idle →
    (state.lease thread).probes = false

section Apart

variable {pool thread : ℕ} {before after : State} {action : Action}
variable {event : Option Empty}

theorem runsUserCode_not_probes (hruns : before.runsUserCode thread = true) :
    (before.lease thread).probes = false := by
  simp only [State.runsUserCode, Bool.and_eq_true, Bool.not_eq_true'] at hruns
  exact hruns.1.2

/-- Handling a guard changes who owns the pool, but not in front of a probe. -/
theorem Apart.of_sameCall (hinv : Apart pool before)
    (hlease : after.lease = before.lease) (hgate : after.gate = before.gate)
    (howner : ∀ other, other ≠ thread →
      after.lowLatencyOwner other = before.lowLatencyOwner other)
    (hguard : ∀ other, other ≠ thread →
      after.guardOp other = before.guardOp other)
    (hthread : (before.lease thread).probes = false) : Apart pool after := by
  have hcalling : ∀ other, after.calling other = before.calling other := by
    intro other
    simp only [State.calling, hlease, hgate]
  constructor
  · intro bypasser hbypasser other hother
    rw [hcalling]
    apply hinv.alone bypasser _ other hother
    rw [State.bypassing, hlease] at hbypasser
    rcases hbypasser with ⟨hprobes, howns⟩ | hskipped
    · by_cases hsame : bypasser = thread
      · rw [hsame, hthread] at hprobes
        cases hprobes
      · exact .inl ⟨hprobes, by rw [← howner bypasser hsame, howns]⟩
    · exact .inr hskipped
  · intro other hbusy
    rw [hlease]
    by_cases hsame : other = thread
    · rw [hsame, hthread]
    · exact hinv.guarding other (by rwa [← hguard other hsame])

/-- A step of a call keeps the others apart: the caller was calling before. -/
theorem Apart.of_call (hinv : Apart pool before) (thread : ℕ)
    (hlease : ∀ other, other ≠ thread →
      after.lease other = before.lease other)
    (hgate : ∀ other, other ≠ thread →
      after.gate.call other = before.gate.call other)
    (howner : after.lowLatencyOwner = before.lowLatencyOwner)
    (hguard : after.guardOp = before.guardOp)
    (hcalls : before.calling thread = true)
    (hbypass : after.bypassing pool thread → before.bypassing pool thread)
    (hprobes : (after.lease thread).probes = true →
      (before.lease thread).probes = true) : Apart pool after := by
  constructor
  · intro bypasser hbypasser other hother
    by_cases hself : bypasser = thread
    · subst hself
      have hidle := hinv.alone bypasser (hbypass hbypasser) other hother
      simpa only [State.calling, hlease other hother, hgate other hother]
        using hidle
    · have hbefore : before.bypassing pool bypasser := by
        simpa only [State.bypassing, hlease bypasser hself, howner]
          using hbypasser
      have hidle := hinv.alone bypasser hbefore thread (Ne.symm hself)
      simp [hcalls] at hidle
  · intro other hbusy
    rw [hguard] at hbusy
    have hquiet := hinv.guarding other hbusy
    by_cases hself : other = thread
    · subst hself
      by_contra hprobe
      simp [hprobes (by simpa using hprobe)] at hquiet
    · rwa [hlease other hself]

/-- A step of the gate's own code. -/
theorem Apart.stepGate (hinv : Apart pool before)
    {inner : PriorityGate.Action}
    (hgoes : ∀ thread priority, inner ≠ .acquire thread priority)
    (hstep : before.stepGate inner = some after) : Apart pool after := by
  have hcalls := not_idle_of_stepGate hgoes hstep
  obtain ⟨hafter, pc, event, hmoves⟩ := stepGate_moves hstep
  have hlease : after.lease = before.lease := by rw [hafter]
  have howner : after.lowLatencyOwner = before.lowLatencyOwner := by
    rw [hafter]
  apply hinv.of_call inner.thread
  · intro other _
    rw [hlease]
  · intro other hother
    rw [hmoves.call, Function.update_of_ne hother]
  · exact howner
  · rw [hafter]
  · simp [State.calling, hcalls]
  · simp only [State.bypassing, hlease, howner, imp_self]
  · rw [hlease]
    exact id

theorem apart_stepCall (hinv : Apart pool before)
    (hstep : stepCall pool before thread = some after) : Apart pool after := by
  have hcalls : ∀ pc, before.lease thread = pc → pc ≠ .idle →
      before.calling thread = true := by
    intro pc hpc hbusy
    simp [State.calling, hpc, hbusy]
  cases hpc : before.lease thread <;> simp only [stepCall, hpc] at hstep
  case idle => exact hinv.stepGate (by simp) hstep
  case skipped =>
    obtain rfl := Option.some.inj hstep
    apply hinv.of_call thread
    · intro other hother
      simp [State.setLease, hother]
    · exact fun _ _ => rfl
    · rfl
    · rfl
    · exact hcalls _ hpc (by simp)
    · simp [State.bypassing, State.setLease, LeasePc.probes]
    · simp [State.setLease, LeasePc.probes]
  case probe priority =>
    split at hstep
    next howns =>
      obtain rfl := Option.some.inj hstep
      apply hinv.of_call thread
      · intro other hother
        simp [State.setLease, hother]
      · exact fun _ _ => rfl
      · rfl
      · rfl
      · exact hcalls _ hpc (by simp)
      · exact fun _ => .inl ⟨by rw [hpc]; rfl, howns.2⟩
      · simp [State.setLease, LeasePc.probes]
    next =>
      obtain ⟨hafter, pc, inner, hmoves⟩ := stepGate_moves hstep
      apply hinv.of_call thread
      · intro other hother
        rw [hafter]
        simp [State.setLease, hother]
      · intro other hother
        rw [hmoves.call]
        exact Function.update_of_ne hother _ _
      · rw [hafter]
        rfl
      · rw [hafter]
        rfl
      · exact hcalls _ hpc (by simp)
      · rw [hafter]
        simp [State.bypassing, State.setLease, LeasePc.probes]
      · rw [hafter]
        simp [State.setLease, LeasePc.probes]

theorem apart_step (hinv : Apart pool before)
    (hallowed : OwnerCallsAlone pool before action)
    (hstep : (gate pool).step before action = some (after, event)) :
    Apart pool after := by
  cases action with
  | dispatch thread priority =>
      obtain ⟨hown, hnone⟩ := hallowed
      simp only [gate] at hstep
      split at hstep
      next hidle =>
        obtain ⟨rfl, rfl⟩ := by simpa using hstep
        constructor
        · intro bypasser hbypasser other hother
          by_cases hsame : bypasser = thread
          · subst hsame
            have howns : before.lowLatencyOwner bypasser = some pool := by
              simpa [State.bypassing, State.setLease, LeasePc.probes]
                using hbypasser
            have hlease : (before.setLease bypasser
                (.probe priority)).lease other = before.lease other := by
              simp [State.setLease, hother]
            rw [State.calling, hlease]
            exact hown howns other hother
          · refine absurd ?_ (hnone bypasser)
            simpa [State.bypassing, State.setLease, hsame] using hbypasser
        · intro other hbusy
          by_cases hsame : other = thread
          · exact absurd (hsame ▸ hidle.2) hbusy
          · simpa [State.setLease, hsame] using hinv.guarding other hbusy
      next => simp at hstep
  | advance thread =>
      simp only [gate] at hstep
      split at hstep
      next hidle =>
        obtain ⟨moved, hmoved, hpair⟩ := Option.map_eq_some_iff.mp hstep
        obtain ⟨rfl, rfl⟩ := by simpa using hpair
        exact apart_stepCall hinv hmoved
      next => simp at hstep
  | failTryLock thread =>
      obtain ⟨moved, hmoved, hpair⟩ := Option.map_eq_some_iff.mp hstep
      obtain ⟨rfl, rfl⟩ := by simpa using hpair
      exact hinv.stepGate (by simp) hmoved
  | respin thread =>
      obtain ⟨moved, hmoved, hpair⟩ := Option.map_eq_some_iff.mp hstep
      obtain ⟨rfl, rfl⟩ := by simpa using hpair
      exact hinv.stepGate (by simp) hmoved
  | engage thread target =>
      simp only [gate] at hstep
      split at hstep
      next hruns =>
        obtain ⟨rfl, rfl⟩ := by simpa using hstep
        refine hinv.of_sameCall rfl rfl ?_ ?_ (runsUserCode_not_probes hruns)
        · intro other hother
          simp [State.setOwner, State.setGuardOp, hother]
        · intro other hother
          simp [State.setOwner, State.setGuardOp, hother]
      next => simp at hstep
  | disengage thread index =>
      simp only [gate] at hstep
      split at hstep
      next hruns =>
        split at hstep
        next => simp at hstep
        next guard _ =>
          obtain ⟨rfl, rfl⟩ := by simpa using hstep
          refine hinv.of_sameCall rfl rfl ?_ ?_ (runsUserCode_not_probes hruns)
          · intro other hother
            rfl
          · intro other hother
            simp [State.setGuardOp, hother]
      next => simp at hstep
  | advanceGuard thread =>
      obtain ⟨moved, hmoved, hpair⟩ := Option.map_eq_some_iff.mp hstep
      obtain ⟨rfl, rfl⟩ := by simpa using hpair
      have hbusy : before.guardOp thread ≠ .idle := by
        intro hpc
        simp [stepGuard, hpc] at hmoved
      cases hpc : before.guardOp thread <;>
        simp only [stepGuard, hpc, Option.some.injEq, reduceCtorEq] at hmoved
      all_goals
        subst hmoved
        refine hinv.of_sameCall rfl rfl ?_ ?_ (hinv.guarding thread hbusy)
        · intro other hother
          simp [State.setOwner, State.setGuardOp, hother]
        · intro other hother
          simp [State.setOwner, State.setGuardOp, hother]

theorem apart_start (pool : ℕ) : Apart pool start := by
  constructor <;> simp [start, State.bypassing, LeasePc.probes]

end Apart

/-- Whoever is inside either holds the mutex or is alone past it. -/
theorem singleProducer_of_apart {pool : ℕ} {state : State}
    (hheld : MutexHeld (fun _ => True) state.gate)
    (hapart : Apart pool state) : SingleProducer state := by
  have hcalls : ∀ thread, state.isInside thread = true →
      state.calling thread = true := by
    intro thread hinside
    by_contra hidle
    simp only [State.calling, Bool.not_eq_true, Bool.not_eq_false',
      Bool.and_eq_true, decide_eq_true_eq] at hidle
    simp [State.isInside, hidle.1, hidle.2, acquired] at hinside
  have halone : ∀ left right, state.lease left = .skipped →
      state.isInside right = true → left = right := by
    intro left right hskipped hright
    by_contra hne
    have hidle := hapart.alone left (.inr hskipped) right (Ne.symm hne)
    simp [hcalls right hright] at hidle
  have howner : ∀ thread, acquired (state.gate.call thread) = true →
      state.gate.dispatchMutex = some thread := by
    intro thread hacquired
    apply (hheld thread trivial).mp
    cases hpc : state.gate.call thread <;> rw [hpc] at hacquired <;>
      first | rfl | cases hacquired
  intro left right hleft hright
  by_cases hskipped : state.lease left = .skipped
  · exact halone left right hskipped hright
  by_cases hother : state.lease right = .skipped
  · exact (halone right left hother hleft).symm
  have hheldLeft := howner left (by
    simpa [State.isInside, hskipped] using hleft)
  have hheldRight := howner right (by
    simpa [State.isInside, hother] using hright)
  exact Option.some.inj (hheldLeft.symm.trans hheldRight)

/-- As long as no call of a guard's owner overlaps another thread's call, at
most one thread is inside the gated section of the pool in every state of
every run. -/
theorem singleProducer_of_run (pool : ℕ) {trace : List Empty} {state : State}
    (run : Run (gate pool) (OwnerCallsAlone pool) start trace state) :
    SingleProducer state := by
  have hboth : MutexHeld (fun _ => True) state.gate ∧ Apart pool state :=
    run.invariant
      (fun _ state => MutexHeld (fun _ => True) state.gate ∧ Apart pool state)
      ⟨mutexHeld_start, apart_start pool⟩ fun hinv hallowed hstep =>
        ⟨mutexHeld_step hinv.1 hstep, apart_step hinv.2 hallowed hstep⟩
  exact singleProducer_of_apart hboth.1 hboth.2

/-- A thread engages a guard and dispatches past the gate. -/
theorem singleProducer_bypass :
    ∃ trace state, Run (gate 0) (OwnerCallsAlone 0) start trace state ∧
      state.lease 0 = .skipped ∧ SingleProducer state := by
  have engaged : Run (gate 0) (OwnerCallsAlone 0) start _ _ := Run.start.next
    (show OwnerCallsAlone 0 start (.engage 0 0) from trivial) rfl
  have raised := engaged.next
    (show OwnerCallsAlone 0 _ (.advanceGuard 0) from trivial) rfl
  have alive := raised.next
    (show OwnerCallsAlone 0 _ (.advanceGuard 0) from trivial) rfl
  have called := alive.next
    (show OwnerCallsAlone 0 _ (.dispatch 0 .latency) from
      ⟨fun _ _ _ => rfl, fun _ => by
        simp [State.bypassing, State.setGuardOp, State.setOwner, start,
          LeasePc.probes]⟩) rfl
  have entered := called.next
    (show OwnerCallsAlone 0 _ (.advance 0) from trivial) rfl
  exact ⟨_, _, entered, rfl, singleProducer_of_run 0 entered⟩

end Citor.DispatchGate
