import Citor.Core.Census
import Citor.Coro.SyncWait

/-!
# The gate when every awaiter is built inside

When each awaiter carries the gate of the call whose coroutine awaits it, the
gate counts exactly the drivers that still have something to do for the call.
One token for each call passes between the coroutine's code, the closures in
flight and the done bit.
-/

namespace Citor.SyncWait

open Citor.Interleaving

/-! ## What the closures of a call amount to -/

/-- The gate still counts the closure. -/
def ClosurePhase.counted : ClosurePhase → Bool
  | .notifying | .finished => false
  | _ => true

/-- The closure carries the coroutine on. -/
def ClosurePhase.carries : ClosurePhase → Bool
  | .pending _ | .queued | .body | .resuming .running => true
  | _ => false

/-- The closure is about to notify. -/
def ClosurePhase.wakes : ClosurePhase → Bool
  | .notifying => true
  | _ => false

/-- The closure belongs to a call and its phase passes a test. -/
def Closure.among (test : ClosurePhase → Bool) (owner : ℕ)
    (closure : Closure) : Bool :=
  closure.owner == owner && test closure.phase

/-- How many closures of a call pass a test. -/
def tally (closures : List Closure) (test : ClosurePhase → Bool)
    (owner : ℕ) : ℕ :=
  closures.countP (·.among test owner)

/-- The calling thread runs the coroutine itself. -/
def CallPhase.runs : CallPhase → Bool
  | .resuming .running => true
  | _ => false

/-- The call has seen, or acted on, a gate that is final. -/
def CallPhase.sawFinal : CallPhase → Bool
  | .loaded seen => seen.final
  | .returned => true
  | _ => false

def CallPhase.isBlocked : CallPhase → Bool
  | .blocked _ => true
  | _ => false

/-- A call among its closures: how many the gate counts, how many carry its
coroutine, how many are about to notify it. -/
structure CallInv (call : Call) (counted carrying waking : ℕ) : Prop where
  count : call.gate.count = counted
  token : call.phase.runs.toNat + carrying + call.gate.done.toNat = 1
  final : call.phase.sawFinal = true → call.gate.final = true
  notified : call.phase.isBlocked = true → call.gate.final = true → 0 < waking

structure GateInv (calls : List Call) (closures : List Closure) : Prop where
  gated : ∀ closure ∈ closures,
    closure.gate = some closure.owner ∧ closure.owner < calls.length
  call : ∀ index call, calls[index]? = some call →
    CallInv call (tally closures ClosurePhase.counted index)
      (tally closures ClosurePhase.carries index)
      (tally closures ClosurePhase.wakes index)

/-- What the invariant says about the gates. -/
theorem GateInv.gateSound {state : State}
    (hinv : GateInv state.calls state.closures) : GateSound state where
  outlived := by
    intro index call hcall hreturned closure hmem howner
    have hcallInv := hinv.call index call hcall
    have hfinal : call.gate.final = true :=
      hcallInv.final (by simp [hreturned, CallPhase.sawFinal])
    have hnone : tally state.closures ClosurePhase.counted index = 0 := by
      rw [← hcallInv.count]
      simp_all [SyncWaitGate.final]
    have hcounts := List.countP_eq_zero.1 hnone closure hmem
    cases hphase : closure.phase <;>
      simp_all [Closure.among, ClosurePhase.counted, Closure.inside]
  awake := by
    intro index call seen hcall hblocked hdone hinside
    have hcallInv := hinv.call index call hcall
    have hnotifies : ∀ closure ∈ state.closures, closure.owner = index →
        closure.phase = .leaving ∨ closure.phase = .notifying →
        ∃ closure ∈ state.closures, closure.notifies index = true := by
      intro closure hmem howner hphase
      have hgate := (hinv.gated closure hmem).1
      refine ⟨closure, hmem, ?_⟩
      rcases hphase with hphase | hphase <;>
        simp [Closure.notifies, hgate, howner, hphase]
    cases hfinal : call.gate.final with
    | true =>
        have hpos := hcallInv.notified (by simp [hblocked, CallPhase.isBlocked])
          hfinal
        obtain ⟨closure, hmem, hwakes⟩ := List.countP_pos_iff.1 hpos
        simp only [Closure.among, Bool.and_eq_true, beq_iff_eq] at hwakes
        refine hnotifies closure hmem hwakes.1 (.inr ?_)
        cases hphase : closure.phase <;> simp_all [ClosurePhase.wakes]
    | false =>
        have hpos : 0 < tally state.closures ClosurePhase.counted index := by
          rw [← hcallInv.count]
          have : call.gate.count ≠ 0 := by simp_all [SyncWaitGate.final]
          omega
        obtain ⟨closure, hmem, hcounts⟩ := List.countP_pos_iff.1 hpos
        have hcarries : tally state.closures ClosurePhase.carries index = 0 := by
          have := hcallInv.token
          simp only [hdone, Bool.toNat_true] at this
          omega
        have hnot := List.countP_eq_zero.1 hcarries closure hmem
        simp only [Closure.among, Bool.and_eq_true, beq_iff_eq] at hcounts
        have hout := hinside closure hmem hcounts.1
        refine hnotifies closure hmem hcounts.1 (.inl ?_)
        cases hphase : closure.phase <;>
          simp_all [Closure.among, ClosurePhase.carries,
            ClosurePhase.counted, Closure.inside]

/-! ## Replacing a call or a closure -/

theorem tally_modify {closures : List Closure} {index : ℕ}
    {closure : Closure} (hclosure : closures[index]? = some closure)
    (change : Closure → Closure)
    (howner : (change closure).owner = closure.owner)
    (test : ClosurePhase → Bool) :
    tally (closures.modify index change) test closure.owner +
        (test closure.phase).toNat =
      tally closures test closure.owner +
        (test (change closure).phase).toNat := by
  simpa [Closure.among, howner, tally] using
    Census.countP_modify (·.among test closure.owner) change hclosure

theorem tally_modify_of_ne {closures : List Closure} {index : ℕ}
    {closure : Closure} (hclosure : closures[index]? = some closure)
    {change : Closure → Closure}
    (howner : (change closure).owner = closure.owner)
    (test : ClosurePhase → Bool) {other : ℕ} (hother : other ≠ closure.owner) :
    tally (closures.modify index change) test other =
      tally closures test other := by
  have hne : (closure.owner == other) = false :=
    beq_eq_false_iff_ne.2 (Ne.symm hother)
  have hcount := Census.countP_modify (·.among test other) change hclosure
  simpa [Closure.among, howner, hne, tally] using hcount

@[simp] theorem tally_append (front back : List Closure)
    (test : ClosurePhase → Bool) (owner : ℕ) :
    tally (front ++ back) test owner =
      tally front test owner + tally back test owner := by
  simp [tally]

@[simp] theorem tally_singleton (closure : Closure)
    (test : ClosurePhase → Bool) (owner : ℕ) :
    tally [closure] test owner =
      (closure.owner == owner && test closure.phase).toNat := by
  simp only [tally, List.countP_singleton, Closure.among]
  cases closure.owner == owner && test closure.phase <;> rfl

/-- One call and its own closures change. -/
theorem GateInv.change {calls : List Call} {closures after : List Closure}
    (hinv : GateInv calls closures) {owner : ℕ} {call : Call}
    (hcall : calls[owner]? = some call) {change : Call → Call}
    (hgated : ∀ closure ∈ after,
      closure.gate = some closure.owner ∧ closure.owner < calls.length)
    (hothers : ∀ test other, other ≠ owner →
      tally after test other = tally closures test other)
    (howner : CallInv (change call) (tally after ClosurePhase.counted owner)
      (tally after ClosurePhase.carries owner)
      (tally after ClosurePhase.wakes owner)) :
    GateInv (calls.modify owner change) after where
  gated := by simpa using hgated
  call := by
    intro index other hother
    by_cases hindex : index = owner
    · subst hindex
      obtain rfl : change call = other := by
        simpa [hcall] using hother
      exact howner
    · rw [List.getElem?_modify_ne _ _ (Ne.symm hindex)] at hother
      simp only [hothers _ index hindex]
      exact hinv.call index other hother

/-- A change of one closure keeps every closure on the gate of its call. -/
theorem gated_modify {calls : List Call} {closures : List Closure}
    (hinv : GateInv calls closures) {index : ℕ} {closure : Closure}
    (hclosure : closures[index]? = some closure) {change : Closure → Closure}
    (howner : (change closure).owner = closure.owner)
    (hgate : (change closure).gate = closure.gate) :
    ∀ other ∈ closures.modify index change,
      other.gate = some other.owner ∧ other.owner < calls.length := by
  intro other hmem
  rcases Census.mem_modify hclosure hmem with rfl | hkept
  · rw [howner, hgate]
    exact hinv.gated closure (List.mem_iff_getElem?.2 ⟨index, hclosure⟩)
  · exact hinv.gated other hkept

/-- A call moves on without touching its gate or its closures. -/
theorem GateInv.modifyCall {calls : List Call} {closures : List Closure}
    (hinv : GateInv calls closures) {owner : ℕ} {call : Call}
    (hcall : calls[owner]? = some call) {change : Call → Call}
    (hkeep : ∀ {counted carrying waking},
      CallInv call counted carrying waking →
      CallInv (change call) counted carrying waking) :
    GateInv (calls.modify owner change) closures :=
  hinv.change hcall hinv.gated (fun _ _ _ => rfl)
    (hkeep (hinv.call owner call hcall))

theorem GateInv.owner_call {calls : List Call} {closures : List Closure}
    (hinv : GateInv calls closures) {index : ℕ} {closure : Closure}
    (hclosure : closures[index]? = some closure) :
    ∃ call, calls[closure.owner]? = some call :=
  ⟨_, List.getElem?_eq_getElem
    (hinv.gated closure (List.mem_iff_getElem?.2 ⟨index, hclosure⟩)).2⟩

/-- A closure and the call it belongs to move on together. -/
theorem GateInv.modifyClosure {calls : List Call} {closures : List Closure}
    (hinv : GateInv calls closures) {index : ℕ} {closure : Closure}
    (hclosure : closures[index]? = some closure) {call : Call}
    (hcall : calls[closure.owner]? = some call)
    (changeCall : Call → Call) {change : Closure → Closure}
    (howner : (change closure).owner = closure.owner)
    (hgate : (change closure).gate = closure.gate)
    (hkeep : ∀ {counted carrying waking counted' carrying' waking' : ℕ},
      CallInv call counted carrying waking →
      closure.phase.counted.toNat ≤ counted →
      counted' + closure.phase.counted.toNat =
        counted + (change closure).phase.counted.toNat →
      carrying' + closure.phase.carries.toNat =
        carrying + (change closure).phase.carries.toNat →
      waking' + closure.phase.wakes.toNat =
        waking + (change closure).phase.wakes.toNat →
      CallInv (changeCall call) counted' carrying' waking') :
    GateInv (calls.modify closure.owner changeCall)
      (closures.modify index change) := by
  have hcounted : closure.phase.counted.toNat ≤
      tally closures ClosurePhase.counted closure.owner := by
    simpa [Closure.among, tally] using Census.toNat_le_countP
      (·.among ClosurePhase.counted closure.owner) hclosure
  refine hinv.change hcall (gated_modify hinv hclosure howner hgate) ?_ ?_
  · intro test other hother
    exact tally_modify_of_ne hclosure howner test hother
  · exact hkeep (hinv.call _ _ hcall) hcounted
      (tally_modify hclosure change howner _)
      (tally_modify hclosure change howner _)
      (tally_modify hclosure change howner _)

/-- A closure moves on and stays what it is to its call. -/
theorem GateInv.advanceClosure {calls : List Call} {closures : List Closure}
    (hinv : GateInv calls closures) {index : ℕ} {closure : Closure}
    (hclosure : closures[index]? = some closure)
    {change : Closure → Closure}
    (howner : (change closure).owner = closure.owner)
    (hgate : (change closure).gate = closure.gate)
    (hcounted : (change closure).phase.counted = closure.phase.counted)
    (hcarries : (change closure).phase.carries = closure.phase.carries)
    (hwakes : (change closure).phase.wakes = closure.phase.wakes) :
    GateInv calls (closures.modify index change) := by
  obtain ⟨call, hcall⟩ := hinv.owner_call hclosure
  have hboth := hinv.modifyClosure hclosure hcall id howner hgate
    (by
      intro counted carrying waking counted' carrying' waking' hcallInv _
        hcount hcarry hwake
      rw [hcounted] at hcount
      rw [hcarries] at hcarry
      rw [hwakes] at hwake
      obtain rfl : counted' = counted := by omega
      obtain rfl : carrying' = carrying := by omega
      obtain rfl : waking' = waking := by omega
      exact hcallInv)
  simpa using hboth

/-! ## Closures wait in one place -/

/-- The resume in a frame is about to submit a closure. -/
def State.Submits (state : State) (frame : Frame) (closure : ℕ) : Prop :=
  match frame with
  | .call index => ∃ call, state.calls[index]? = some call ∧
      call.phase = .resuming (.submitting closure)
  | .closure index => ∃ other, state.closures[index]? = some other ∧
      other.phase = .resuming (.submitting closure)

/-- A closure not taken yet is with its submitter or once in its queue. -/
structure Placed (state : State) : Prop where
  submits : ∀ frame index, state.Submits frame index →
    ∃ closure, state.closures[index]? = some closure ∧
      closure.phase = .pending frame
  queued : ∀ pool, (state.queues pool).Nodup ∧
    ∀ index ∈ state.queues pool, ∃ closure,
      state.closures[index]? = some closure ∧ closure.pool = pool ∧
        closure.phase = .queued

/-- The closure waits to be taken. -/
def ClosurePhase.waits : ClosurePhase → Bool
  | .pending _ | .queued => true
  | _ => false

/-- The phase is not in front of a submission. -/
def ClosurePhase.idle : ClosurePhase → Prop
  | .resuming (.submitting _) => False
  | _ => True

def CallPhase.idle : CallPhase → Prop
  | .resuming (.submitting _) => False
  | _ => True

/-- Calls, threads and awaiters move on; no call comes to a submission. -/
theorem Placed.calls {before after : State} (hplaced : Placed before)
    (hclosures : after.closures = before.closures)
    (hqueues : after.queues = before.queues)
    (hcalls : ∀ (index : ℕ) (call : Call), after.calls[index]? = some call →
      call.phase.idle ∨ ∃ earlier : Call, before.calls[index]? = some earlier ∧
        earlier.phase = call.phase) : Placed after where
  submits := by
    intro frame index hsubmits
    rw [hclosures]
    refine hplaced.submits frame index ?_
    cases frame with
    | call position =>
        obtain ⟨call, hcall, hphase⟩ := hsubmits
        rcases hcalls position call hcall with hidle | ⟨earlier, hearlier, hsame⟩
        · simp [hphase, CallPhase.idle] at hidle
        · exact ⟨earlier, hearlier, hsame.trans hphase⟩
    | closure position =>
        simpa [State.Submits, hclosures] using hsubmits
  queued := by
    rw [hclosures, hqueues]
    exact hplaced.queued

/-- A call moves on, not to a submission. -/
theorem Placed.modifyCall {state : State} (hplaced : Placed state)
    {index : ℕ} {change : Call → Call}
    (hchange : ∀ call, state.calls[index]? = some call →
      (change call).phase.idle ∨ call.phase = (change call).phase) :
    Placed (state.modifyCall index change) := by
  refine hplaced.calls rfl rfl fun position call hcall => ?_
  by_cases hposition : index = position
  · subst hposition
    obtain ⟨earlier, hearlier, rfl⟩ : ∃ earlier,
        state.calls[index]? = some earlier ∧ change earlier = call := by
      simpa [State.modifyCall] using hcall
    exact (hchange earlier hearlier).imp_right fun hphase =>
      ⟨earlier, hearlier, hphase⟩
  · refine .inr ⟨call, ?_, rfl⟩
    simpa [State.modifyCall, List.getElem?_modify_ne _ _ hposition] using hcall

/-- A closure that was taken moves on, not to a submission. -/
theorem Placed.modifyClosure {state : State} (hplaced : Placed state)
    {index : ℕ} {closure : Closure}
    (hclosure : state.closures[index]? = some closure)
    (hwaits : closure.phase.waits = false) {change : Closure → Closure}
    (hidle : (change closure).phase.idle) :
    Placed (state.modifyClosure index change) := by
  have hkept : ∀ {position : ℕ} {other : Closure},
      state.closures[position]? = some other →
      other.phase.waits = true →
      (state.modifyClosure index change).closures[position]? = some other := by
    intro position other hother hphase
    have hne : index ≠ position := by
      rintro rfl
      obtain rfl : closure = other := by simpa [hclosure] using hother
      simp [hwaits] at hphase
    simpa [State.modifyClosure, List.getElem?_modify_ne _ _ hne] using hother
  constructor
  · intro frame position hsubmits
    have hbefore : state.Submits frame position := by
      cases frame with
      | call => exact hsubmits
      | closure submitter =>
          obtain ⟨other, hother, hphase⟩ := hsubmits
          by_cases hsubmitter : index = submitter
          · subst hsubmitter
            obtain rfl : change closure = other := by
              simpa [State.modifyClosure, hclosure] using hother
            simp [hphase, ClosurePhase.idle] at hidle
          · refine ⟨other, ?_, hphase⟩
            simpa [State.modifyClosure,
              List.getElem?_modify_ne _ _ hsubmitter] using hother
    obtain ⟨other, hother, hphase⟩ := hplaced.submits frame position hbefore
    exact ⟨other, hkept hother (by simp [hphase, ClosurePhase.waits]), hphase⟩
  · intro pool
    refine ⟨(hplaced.queued pool).1, fun position hposition => ?_⟩
    obtain ⟨other, hother, hpool, hphase⟩ :=
      (hplaced.queued pool).2 position hposition
    exact ⟨other, hkept hother (by simp [hphase, ClosurePhase.waits]), hpool,
      hphase⟩

/-- The submission itself, once the submitter has moved on. -/
theorem Placed.submit {state : State} (hplaced : Placed state) {index : ℕ}
    {closure : Closure} {frame : Frame}
    (hclosure : state.closures[index]? = some closure)
    (hpending : closure.phase = .pending frame)
    (hnone : ¬ state.Submits frame index) : Placed (state.submit index) := by
  have hsubmit : state.submit index =
      { state.modifyClosure index (·.at .queued) with
        queues := Function.update state.queues closure.pool
          (state.queues closure.pool ++ [index]) } := by
    simp [State.submit, hclosure]
  have hkept : ∀ {position : ℕ} {other : Closure},
      state.closures[position]? = some other → position ≠ index →
      (state.submit index).closures[position]? = some other := by
    intro position other hother hne
    simpa [hsubmit, State.modifyClosure,
      List.getElem?_modify_ne _ _ (Ne.symm hne)] using hother
  have hself : (state.submit index).closures[index]? =
      some (closure.at .queued) := by
    simp [hsubmit, State.modifyClosure, hclosure]
  have hfresh : ∀ pool, index ∉ state.queues pool := by
    intro pool hmem
    obtain ⟨other, hother, -, hphase⟩ := (hplaced.queued pool).2 index hmem
    obtain rfl : closure = other := by simpa [hclosure] using hother
    simp [hpending] at hphase
  constructor
  · intro submitter position hsubmits
    have hbefore : state.Submits submitter position := by
      cases submitter with
      | call => simpa [State.Submits, hsubmit, State.modifyClosure] using hsubmits
      | closure other =>
          obtain ⟨found, hfound, hphase⟩ := hsubmits
          by_cases hother : other = index
          · subst hother
            obtain rfl : closure.at .queued = found := by
              simpa [hself] using hfound
            simp [Closure.at] at hphase
          · refine ⟨found, ?_, hphase⟩
            simpa [hsubmit, State.modifyClosure,
              List.getElem?_modify_ne _ _ (Ne.symm hother)] using hfound
    obtain ⟨other, hother, hphase⟩ := hplaced.submits submitter position hbefore
    have hne : position ≠ index := by
      rintro rfl
      obtain rfl : closure = other := by simpa [hclosure] using hother
      obtain rfl : frame = submitter := by simpa [hpending] using hphase
      exact hnone hbefore
    exact ⟨other, hkept hother hne, hphase⟩
  · have hold : ∀ pool, ∀ position ∈ state.queues pool, ∃ other,
        (state.submit index).closures[position]? = some other ∧
          other.pool = pool ∧ other.phase = .queued := by
      intro pool position hposition
      obtain ⟨other, hother, hrest⟩ :=
        (hplaced.queued pool).2 position hposition
      have hne : position ≠ index := by
        rintro rfl
        exact hfresh pool hposition
      exact ⟨other, hkept hother hne, hrest⟩
    intro pool
    by_cases hpool : pool = closure.pool
    · subst hpool
      have hqueue : (state.submit index).queues closure.pool =
          state.queues closure.pool ++ [index] := by simp [hsubmit]
      rw [hqueue]
      refine ⟨(hplaced.queued _).1.append (List.nodup_singleton index) ?_, ?_⟩
      · simpa using hfresh closure.pool
      · intro position hposition
        rcases List.mem_append.1 hposition with hposition | hposition
        · exact hold closure.pool position hposition
        · obtain rfl : position = index := by simpa using hposition
          exact ⟨_, hself, rfl, rfl⟩
    · have hqueue : (state.submit index).queues pool = state.queues pool := by
        simp [hsubmit, hpool]
      rw [hqueue]
      exact ⟨(hplaced.queued pool).1, hold pool⟩

/-- A driver takes the front of its queue. -/
theorem Placed.take {state : State} (hplaced : Placed state) {pool index : ℕ}
    {rest : List ℕ} (hqueue : state.queues pool = index :: rest)
    {change : Closure → Closure}
    (hbody : ∀ closure, (change closure).phase = .body) :
    Placed (State.modifyClosure { state with
      queues := Function.update state.queues pool rest } index change) := by
  obtain ⟨hnodup, hqueued⟩ := hplaced.queued pool
  rw [hqueue] at hnodup hqueued
  obtain ⟨closure, hclosure, -, hphase⟩ := hqueued index (by simp)
  have hkept : ∀ {position : ℕ} {other : Closure},
      state.closures[position]? = some other → position ≠ index →
      (state.closures.modify index change)[position]? = some other := by
    intro position other hother hne
    rwa [List.getElem?_modify_ne _ _ (Ne.symm hne)]
  constructor
  · intro frame position hsubmits
    have hbefore : state.Submits frame position := by
      cases frame with
      | call => exact hsubmits
      | closure other =>
          obtain ⟨found, hfound, hsubmitting⟩ := hsubmits
          by_cases hother : other = index
          · subst hother
            obtain rfl : change closure = found := by
              simpa [State.modifyClosure, hclosure] using hfound
            simp [hbody] at hsubmitting
          · refine ⟨found, ?_, hsubmitting⟩
            simpa [State.modifyClosure,
              List.getElem?_modify_ne _ _ (Ne.symm hother)] using hfound
    obtain ⟨other, hother, hpending⟩ := hplaced.submits frame position hbefore
    have hne : position ≠ index := by
      rintro rfl
      obtain rfl : closure = other := by simpa [hclosure] using hother
      simp [hphase] at hpending
    exact ⟨other, hkept hother hne, hpending⟩
  · intro queue
    by_cases hother : queue = pool
    · subst hother
      simp only [State.modifyClosure, Function.update_self]
      rw [List.nodup_cons] at hnodup
      refine ⟨hnodup.2, fun position hposition => ?_⟩
      obtain ⟨other, hfound, hrest⟩ :=
        hqueued position (List.mem_cons_of_mem _ hposition)
      have hne : position ≠ index := by
        rintro rfl
        exact hnodup.1 hposition
      exact ⟨other, hkept hfound hne, hrest⟩
    · simp only [State.modifyClosure, Function.update_of_ne hother]
      refine ⟨(hplaced.queued queue).1, fun position hposition => ?_⟩
      obtain ⟨other, hfound, hpool, hrest⟩ :=
        (hplaced.queued queue).2 position hposition
      have hne : position ≠ index := by
        rintro rfl
        obtain ⟨front, hfront, hfrontPool, -⟩ := hqueued position (by simp)
        obtain rfl : front = other := by simpa [hfront] using hfound
        exact hother (hpool.symm.trans hfrontPool)
      exact ⟨other, hkept hfound hne, hpool, hrest⟩

theorem coroutine_call {state : State} {index owner : ℕ}
    (hcoroutine : state.coroutine (.call index) = some owner) :
    owner = index ∧ ∃ call, state.calls[index]? = some call ∧
      call.phase = .resuming .running := by
  simp only [State.coroutine] at hcoroutine
  split at hcoroutine
  next hcall =>
    obtain rfl : index = owner := by simpa using hcoroutine
    exact ⟨rfl, _, hcall, rfl⟩
  next => simp at hcoroutine

theorem coroutine_closure {state : State} {index owner : ℕ}
    (hcoroutine : state.coroutine (.closure index) = some owner) :
    ∃ closure, state.closures[index]? = some closure ∧
      closure.owner = owner ∧ closure.phase = .resuming .running := by
  simp only [State.coroutine] at hcoroutine
  split at hcoroutine
  next hclosure =>
    exact ⟨_, hclosure, by simpa using hcoroutine, rfl⟩
  next => simp at hcoroutine

/-- An await adds a closure that its own frame will submit. -/
theorem Placed.await {state : State} (hplaced : Placed state) {frame : Frame}
    {owner : ℕ} (hcoroutine : state.coroutine frame = some owner)
    {added : Closure} (hadded : added.phase = .pending frame) :
    Placed { state.setResume frame (.submitting state.closures.length) with
      closures := (state.setResume frame
        (.submitting state.closures.length)).closures ++ [added] } := by
  have hlength : (state.setResume frame
      (.submitting state.closures.length)).closures.length =
      state.closures.length := by
    cases frame <;> simp [State.setResume, State.modifyCall,
      State.modifyClosure]
  have hkept : ∀ {position : ℕ} {other : Closure},
      state.closures[position]? = some other →
      other.phase.waits = true →
      ((state.setResume frame (.submitting state.closures.length)).closures ++
        [added])[position]? = some other := by
    intro position other hother hphase
    have hbound : position < state.closures.length :=
      (List.getElem?_eq_some_iff.1 hother).1
    rw [List.getElem?_append_left (by omega)]
    cases frame with
    | call => exact hother
    | closure index =>
        obtain ⟨closure, hclosure, -, hrunning⟩ := coroutine_closure hcoroutine
        have hne : index ≠ position := by
          rintro rfl
          obtain rfl : closure = other := by simpa [hclosure] using hother
          simp [hrunning, ClosurePhase.waits] at hphase
        simpa [State.setResume, State.modifyClosure,
          List.getElem?_modify_ne _ _ hne] using hother
  constructor
  · intro submitter position hsubmits
    by_cases hself : submitter = frame
    · subst hself
      obtain rfl : position = state.closures.length := by
        cases submitter with
        | call index =>
            obtain ⟨call, hcall, hphase⟩ := hsubmits
            simp only [State.setResume, State.modifyCall,
              List.getElem?_modify_eq, Option.map_eq_map,
              Option.map_eq_some_iff] at hcall
            obtain ⟨earlier, -, rfl⟩ := hcall
            simpa [Call.at, eq_comm] using hphase
        | closure index =>
            obtain ⟨closure, hclosure, -, -⟩ := coroutine_closure hcoroutine
            obtain ⟨found, hfound, hphase⟩ := hsubmits
            have hbound : index < state.closures.length :=
              (List.getElem?_eq_some_iff.1 hclosure).1
            rw [List.getElem?_append_left (by omega)] at hfound
            simp only [State.setResume, State.modifyClosure,
              List.getElem?_modify_eq, Option.map_eq_map,
              Option.map_eq_some_iff] at hfound
            obtain ⟨earlier, -, rfl⟩ := hfound
            simpa [Closure.at, eq_comm] using hphase
      refine ⟨added, ?_, hadded⟩
      rw [List.getElem?_append_right (by omega)]
      simp [hlength]
    · have hbefore : state.Submits submitter position := by
        cases submitter with
        | call index =>
            obtain ⟨call, hcall, hphase⟩ := hsubmits
            refine ⟨call, ?_, hphase⟩
            cases frame with
            | call other =>
                have hne : other ≠ index := by
                  rintro rfl
                  exact hself rfl
                simpa [State.setResume, State.modifyCall,
                  List.getElem?_modify_ne _ _ hne] using hcall
            | closure => exact hcall
        | closure index =>
            obtain ⟨found, hfound, hphase⟩ := hsubmits
            refine ⟨found, ?_, hphase⟩
            rcases lt_or_ge index state.closures.length with hbound | hbound
            · rw [List.getElem?_append_left (by omega)] at hfound
              cases frame with
              | call => exact hfound
              | closure other =>
                  have hne : other ≠ index := by
                    rintro rfl
                    exact hself rfl
                  simpa [State.setResume, State.modifyClosure,
                    List.getElem?_modify_ne _ _ hne] using hfound
            · rw [List.getElem?_append_right (by omega),
                List.getElem?_singleton] at hfound
              obtain rfl : added = found := by
                split at hfound <;> simp_all
              simp [hadded] at hphase
      obtain ⟨other, hother, hphase⟩ :=
        hplaced.submits submitter position hbefore
      exact ⟨other, hkept hother (by simp [hphase, ClosurePhase.waits]),
        hphase⟩
  · intro pool
    have hqueue : (state.setResume frame
        (.submitting state.closures.length)).queues = state.queues := by
      cases frame <;> rfl
    simp only [hqueue]
    refine ⟨(hplaced.queued pool).1, fun position hposition => ?_⟩
    obtain ⟨other, hother, hpool, hphase⟩ :=
      (hplaced.queued pool).2 position hposition
    exact ⟨other, hkept hother (by simp [hphase, ClosurePhase.waits]), hpool,
      hphase⟩

/-! ## The steps keep the count and the token -/

/-- Every await uses an awaiter on the gate of the call whose coroutine
awaits. -/
def AwaitsOwn (state : State) : Action → Prop
  | .await thread index => ∀ frame owner awaiter,
      (state.threads thread).stack.head? = some frame →
      state.coroutine frame = some owner →
      state.awaiters[index]? = some awaiter → awaiter.gate = some owner
  | _ => True

theorem final_iff (gate : SyncWaitGate) :
    gate.final = true ↔ gate.done = true ∧ gate.count = 0 := by
  simp [SyncWaitGate.final]

/-- A call whose coroutine is still under way has not seen a final gate. -/
theorem CallInv.sawFinal_false {call : Call} {counted carrying waking : ℕ}
    (hinv : CallInv call counted carrying waking) (hcarrying : 0 < carrying) :
    call.phase.sawFinal = false ∧ call.gate.done = false := by
  have hdone : call.gate.done = false := by
    cases hdone : call.gate.done with
    | false => rfl
    | true =>
        have := hinv.token
        simp only [hdone, Bool.toNat_true] at this
        omega
  refine ⟨?_, hdone⟩
  cases hsaw : call.phase.sawFinal with
  | false => rfl
  | true =>
      have hfinal := hinv.final hsaw
      simp [final_iff, hdone] at hfinal

theorem GateInv.await_call {calls : List Call} {closures : List Closure}
    (hinv : GateInv calls closures) {index closure pool : ℕ} {call : Call}
    {frame : Frame} (hcall : calls[index]? = some call)
    (hrunning : call.phase = .resuming .running) :
    GateInv ((calls.modify index Call.countIn).modify index
        (·.at (.resuming (.submitting closure))))
      (closures ++
        [{ owner := index, gate := some index, pool, phase := .pending frame }]) := by
  have hbound : index < calls.length := (List.getElem?_eq_some_iff.1 hcall).1
  rw [List.modify_modify_eq]
  refine hinv.change hcall ?_ ?_ ?_
  · intro other hother
    rcases List.mem_append.1 hother with hother | hother
    · exact hinv.gated other hother
    · obtain rfl := List.mem_singleton.1 hother
      exact ⟨rfl, hbound⟩
  · intro test other hother
    simp [tally, Closure.among, Ne.symm hother]
  · obtain ⟨hcount, htoken, -, -⟩ := hinv.call index call hcall
    simp only [hrunning, CallPhase.runs, Bool.toNat_true] at htoken
    constructor
    · simp [Call.countIn, ClosurePhase.counted, hcount]
    · simp [Call.countIn, CallPhase.runs, ClosurePhase.carries]
      omega
    · simp [CallPhase.sawFinal]
    · simp [CallPhase.isBlocked]

theorem GateInv.await_closure {calls : List Call} {closures : List Closure}
    (hinv : GateInv calls closures) {index added pool : ℕ}
    {closure : Closure} {frame : Frame}
    (hclosure : closures[index]? = some closure)
    (hrunning : closure.phase = .resuming .running) :
    GateInv (calls.modify closure.owner Call.countIn)
      (closures.modify index (·.at (.resuming (.submitting added))) ++
        [{ owner := closure.owner, gate := some closure.owner, pool
           phase := .pending frame }]) := by
  have hbound : closure.owner < calls.length :=
    (hinv.gated closure (List.mem_iff_getElem?.2 ⟨index, hclosure⟩)).2
  obtain ⟨call, hcall⟩ := hinv.owner_call hclosure
  refine hinv.change hcall ?_ ?_ ?_
  · intro other hother
    rcases List.mem_append.1 hother with hother | hother
    · refine gated_modify hinv hclosure ?_ ?_ other hother <;> rfl
    · obtain rfl := List.mem_singleton.1 hother
      exact ⟨rfl, hbound⟩
  · intro test other hother
    rw [tally_append, tally_modify_of_ne hclosure (by rfl) test hother]
    simp [Ne.symm hother]
  · have hold := hinv.call closure.owner call hcall
    have hmoved := tally_modify hclosure
      (·.at (.resuming (.submitting added))) rfl
    have hcounted := hmoved ClosurePhase.counted
    have hcarries := hmoved ClosurePhase.carries
    simp only [hrunning, Closure.at_phase, ClosurePhase.counted,
      ClosurePhase.carries, Bool.toNat_true, Bool.toNat_false] at hcounted hcarries
    obtain ⟨hsaw, hdone⟩ := hold.sawFinal_false (by omega)
    have hcount := hold.count
    have htoken := hold.token
    constructor
    · simp [Call.countIn, ClosurePhase.counted]
      omega
    · simp [Call.countIn, ClosurePhase.carries]
      omega
    · simp [Call.countIn, hsaw]
    · simp [Call.countIn, final_iff]

/-- The wrapper completes on the calling thread. -/
theorem GateInv.complete_call {calls : List Call} {closures : List Closure}
    (hinv : GateInv calls closures) {index : ℕ} {call : Call}
    (hcall : calls[index]? = some call)
    (hrunning : call.phase = .resuming .running) :
    GateInv ((calls.modify index Call.setDone).modify index
      (·.at (.resuming .unwinding))) closures := by
  rw [List.modify_modify_eq]
  refine hinv.change hcall hinv.gated (fun _ _ _ => rfl) ?_
  obtain ⟨hcount, htoken, -, -⟩ := hinv.call index call hcall
  simp only [hrunning, CallPhase.runs, Bool.toNat_true] at htoken
  constructor
  · simpa [Call.setDone] using hcount
  · simp [Call.setDone, CallPhase.runs]
    omega
  · simp [CallPhase.sawFinal]
  · simp [CallPhase.isBlocked]

/-- The wrapper completes on a driver, which the gate counts. -/
theorem GateInv.complete_closure {calls : List Call}
    {closures : List Closure} (hinv : GateInv calls closures) {index : ℕ}
    {closure : Closure} (hclosure : closures[index]? = some closure)
    (hrunning : closure.phase = .resuming .running) :
    GateInv (calls.modify closure.owner Call.setDone)
      (closures.modify index (·.at (.resuming .unwinding))) := by
  obtain ⟨call, hcall⟩ := hinv.owner_call hclosure
  refine hinv.modifyClosure hclosure hcall Call.setDone rfl rfl ?_
  intro counted carrying waking counted' carrying' waking' hcallInv hpos
    hcounted hcarries hwakes
  simp only [hrunning, Closure.at_phase, ClosurePhase.counted,
    ClosurePhase.carries, Bool.toNat_true, Bool.toNat_false]
    at hpos hcounted hcarries
  obtain ⟨hsaw, hdone⟩ := hcallInv.sawFinal_false (by omega)
  have hcount := hcallInv.count
  have htoken := hcallInv.token
  rw [hdone] at htoken
  constructor
  · simp only [Call.setDone]
    omega
  · simp only [Call.setDone, Bool.toNat_true, Bool.toNat_false] at htoken ⊢
    omega
  · simp [Call.setDone, hsaw]
  · simp only [Call.setDone, final_iff]
    omega

/-- A driver leaves a coroutine and counts itself out; the last one of a done
call goes on to notify. -/
theorem GateInv.leave {calls : List Call} {closures : List Closure}
    (hinv : GateInv calls closures) {index : ℕ} {closure : Closure}
    {call : Call} (hclosure : closures[index]? = some closure)
    (hleaving : closure.phase = .leaving)
    (hcall : calls[closure.owner]? = some call) {phase : ClosurePhase}
    (hphase : phase = .notifying ∨
      phase = .finished ∧ ¬ (call.gate.count = 1 ∧ call.gate.done = true)) :
    GateInv (calls.modify closure.owner Call.countOut)
      (closures.modify index (·.at phase)) := by
  have hout : phase.counted = false ∧ phase.carries = false := by
    rcases hphase with rfl | ⟨rfl, -⟩ <;> exact ⟨rfl, rfl⟩
  refine hinv.modifyClosure hclosure hcall Call.countOut rfl rfl ?_
  intro counted carrying waking counted' carrying' waking' hcallInv hpos
    hcounted hcarries hwakes
  rw [Closure.at_phase, hout.1] at hcounted
  rw [Closure.at_phase, hout.2] at hcarries
  rw [Closure.at_phase] at hwakes
  simp only [hleaving, ClosurePhase.counted, ClosurePhase.carries,
    Bool.toNat_true, Bool.toNat_false] at hpos hcounted hcarries
  have hcount := hcallInv.count
  have htoken := hcallInv.token
  have hsaw : call.phase.sawFinal = false := by
    cases hsaw : call.phase.sawFinal with
    | false => rfl
    | true =>
        have := ((final_iff _).1 (hcallInv.final hsaw)).2
        omega
  constructor
  · simp only [Call.countOut]
    omega
  · simp only [Call.countOut]
    omega
  · simp [Call.countOut, hsaw]
  · simp only [Call.countOut, final_iff]
    rintro - ⟨hdone, hzero⟩
    rcases hphase with rfl | ⟨rfl, hnot⟩
    · simp only [hleaving, ClosurePhase.wakes, Bool.toNat_true,
        Bool.toNat_false] at hwakes
      omega
    · exact absurd ⟨by omega, hdone⟩ hnot

theorem Call.notify_phase (call : Call) :
    call.notify.phase.idle ∨ call.phase = call.notify.phase := by
  unfold Call.notify
  split
  · exact .inl trivial
  · exact .inr rfl

/-- A call that was blocked loads its gate again. -/
theorem CallInv.notify {call : Call} {counted carrying waking : ℕ}
    (hinv : CallInv call counted carrying waking) (waking' : ℕ) :
    CallInv call.notify counted carrying waking' := by
  obtain ⟨hcount, htoken, hfinal, -⟩ := hinv
  unfold Call.notify
  split
  next seen hphase =>
    rw [hphase] at htoken
    exact ⟨hcount, htoken, nofun, nofun⟩
  next hphase =>
    refine ⟨hcount, htoken, hfinal, fun hblocked => ?_⟩
    cases hcase : call.phase <;> simp_all [CallPhase.isBlocked]

/-- The notification ends the wait. -/
theorem GateInv.notify {calls : List Call} {closures : List Closure}
    (hinv : GateInv calls closures) {index : ℕ} {closure : Closure}
    (hclosure : closures[index]? = some closure)
    (hnotifying : closure.phase = .notifying) :
    GateInv (calls.modify closure.owner Call.notify)
      (closures.modify index (·.at .finished)) := by
  obtain ⟨call, hcall⟩ := hinv.owner_call hclosure
  refine hinv.modifyClosure hclosure hcall Call.notify rfl rfl ?_
  intro counted carrying waking counted' carrying' waking' hcallInv _
    hcounted hcarries hwakes
  simp only [hnotifying, Closure.at_phase, ClosurePhase.counted,
    ClosurePhase.carries, Bool.toNat_false, Nat.add_zero] at hcounted hcarries
  subst hcounted hcarries
  exact hcallInv.notify waking'

/-- A new call starts with the coroutine on the calling thread. -/
theorem GateInv.append {calls : List Call} {closures : List Closure}
    (hinv : GateInv calls closures) (savedTL : Option ℕ) :
    GateInv (calls ++ [{ savedTL := savedTL }]) closures where
  gated := by
    intro closure hmem
    obtain ⟨hgate, hbound⟩ := hinv.gated closure hmem
    exact ⟨hgate, by simp; omega⟩
  call := by
    intro index call hcall
    rcases lt_trichotomy index calls.length with hbound | rfl | hbound
    · rw [List.getElem?_append_left hbound] at hcall
      exact hinv.call index call hcall
    · obtain rfl : ({ savedTL := savedTL } : Call) = call := by simpa using hcall
      have hnone : ∀ test, tally closures test calls.length = 0 := by
        intro test
        refine List.countP_eq_zero.2 fun closure hmem => ?_
        have := (hinv.gated closure hmem).2
        simp only [Closure.among, Bool.and_eq_true, beq_iff_eq, not_and]
        omega
      simp only [hnone]
      exact ⟨rfl, rfl, nofun, nofun⟩
    · simp [List.getElem?_append_right hbound.le, List.getElem?_singleton] at hcall
      omega

/-! ## Runs -/

structure RunInv (state : State) : Prop where
  gate : GateInv state.calls state.closures
  placed : Placed state

/-- A step of `syncWait` that leaves the gate and the closures alone. -/
theorem RunInv.modifyCall {state : State} (hinv : RunInv state) {index : ℕ}
    {call : Call} (hcall : state.calls[index]? = some call)
    {change : Call → Call} (hidle : (change call).phase.idle)
    (hkeep : ∀ {counted carrying waking},
      CallInv call counted carrying waking →
      CallInv (change call) counted carrying waking) :
    RunInv (state.modifyCall index change) where
  gate := hinv.gate.modifyCall hcall hkeep
  placed := by
    refine hinv.placed.modifyCall fun other hother => .inl ?_
    obtain rfl : call = other := by simpa [hcall] using hother
    exact hidle

theorem RunInv.modifyThread {state : State} (hinv : RunInv state)
    (thread : ThreadId) (change : Thread → Thread) :
    RunInv (state.modifyThread thread change) where
  gate := hinv.gate
  placed := hinv.placed.calls rfl rfl fun _ other hother =>
    .inr ⟨other, hother, rfl⟩

/-- A resume that has submitted is on its way back. -/
theorem RunInv.submit {state : State} (hinv : RunInv state) (frame : Frame)
    {index : ℕ} (hsubmits : state.Submits frame index) :
    RunInv ((state.setResume frame .unwinding).submit index) := by
  obtain ⟨closure, hclosure, hpending⟩ :=
    hinv.placed.submits frame index hsubmits
  have hmoved : RunInv (state.setResume frame .unwinding) ∧
      (state.setResume frame .unwinding).closures[index]? = some closure ∧
      ¬ (state.setResume frame .unwinding).Submits frame index := by
    cases frame with
    | call position =>
        obtain ⟨call, hcall, hphase⟩ := hsubmits
        refine ⟨hinv.modifyCall hcall trivial ?_, hclosure, ?_⟩
        · rintro counted carrying waking ⟨hcount, htoken, -, -⟩
          rw [hphase] at htoken
          exact ⟨hcount, htoken, nofun, nofun⟩
        · rintro ⟨other, hother, hsubmitting⟩
          obtain rfl : call.at (.resuming .unwinding) = other := by
            simpa [State.setResume, State.modifyCall, hcall] using hother
          simp at hsubmitting
    | closure position =>
        obtain ⟨other, hother, hphase⟩ := hsubmits
        have hne : position ≠ index := by
          rintro rfl
          obtain rfl : closure = other := by simpa [hclosure] using hother
          simp [hpending] at hphase
        refine ⟨⟨hinv.gate.advanceClosure hother rfl rfl ?_ ?_ ?_,
          hinv.placed.modifyClosure hother ?_ trivial⟩, ?_, ?_⟩
        · simp [hphase, ClosurePhase.counted]
        · simp [hphase, ClosurePhase.carries]
        · simp [hphase, ClosurePhase.wakes]
        · simp [hphase, ClosurePhase.waits]
        · simpa [State.setResume, State.modifyClosure,
            List.getElem?_modify_ne _ _ hne] using hclosure
        · rintro ⟨found, hfound, hsubmitting⟩
          obtain rfl : other.at (.resuming .unwinding) = found := by
            simpa [State.setResume, State.modifyClosure, hother] using hfound
          simp at hsubmitting
  obtain ⟨hmovedInv, hfound, hnone⟩ := hmoved
  refine ⟨?_, hmovedInv.placed.submit hfound hpending hnone⟩
  have hgate : GateInv (state.setResume frame .unwinding).calls
      ((state.setResume frame .unwinding).closures.modify index
        (·.at .queued)) :=
    hmovedInv.gate.advanceClosure hfound rfl rfl
      (by simp [hpending, ClosurePhase.counted])
      (by simp [hpending, ClosurePhase.carries])
      (by simp [hpending, ClosurePhase.wakes])
  simpa [State.submit, hfound, State.modifyClosure] using hgate

/-- A coroutine awaits on the gate of its own call. -/
theorem RunInv.await {state : State} (hinv : RunInv state) {frame : Frame}
    {owner : ℕ} {awaiter : Awaiter}
    (hcoroutine : state.coroutine frame = some owner)
    (hown : awaiter.gate = some owner) :
    RunInv (state.awaitSuspend frame owner awaiter) := by
  have hcounted : state.countIn awaiter.gate =
      state.modifyCall owner Call.countIn := by
    simp [State.countIn, hown]
  have hsame : (state.modifyCall owner Call.countIn).coroutine frame =
      some owner := by
    cases frame with
    | closure => exact hcoroutine
    | call index =>
        obtain ⟨rfl, call, hcall, hphase⟩ := coroutine_call hcoroutine
        simp [State.coroutine, State.modifyCall, hcall, Call.countIn, hphase]
  have hplaced : Placed (state.modifyCall owner Call.countIn) :=
    hinv.placed.modifyCall fun _ _ => .inr rfl
  refine ⟨?_, ?_⟩
  · cases frame with
    | call index =>
        obtain ⟨rfl, call, hcall, hphase⟩ := coroutine_call hcoroutine
        simpa [State.awaitSuspend, State.countIn, hown, State.setResume,
          State.modifyCall] using hinv.gate.await_call hcall hphase
    | closure index =>
        obtain ⟨closure, hclosure, rfl, hphase⟩ := coroutine_closure hcoroutine
        simpa [State.awaitSuspend, State.countIn, hown, State.setResume,
          State.modifyCall, State.modifyClosure]
          using hinv.gate.await_closure hclosure hphase
  · simp only [State.awaitSuspend, hcounted]
    exact hplaced.await hsame rfl

/-- The wrapper completes. -/
theorem RunInv.complete {state : State} (hinv : RunInv state) {frame : Frame}
    {owner : ℕ} (hcoroutine : state.coroutine frame = some owner) :
    RunInv ((state.modifyCall owner Call.setDone).setResume frame
      .unwinding) := by
  cases frame with
  | call index =>
      obtain ⟨rfl, call, hcall, hphase⟩ := coroutine_call hcoroutine
      have hdone : Placed (state.modifyCall owner Call.setDone) :=
        hinv.placed.modifyCall fun _ _ => .inr rfl
      exact ⟨hinv.gate.complete_call hcall hphase,
        hdone.modifyCall fun _ _ => .inl trivial⟩
  | closure index =>
      obtain ⟨closure, hclosure, rfl, hphase⟩ := coroutine_closure hcoroutine
      refine ⟨hinv.gate.complete_closure hclosure hphase, ?_⟩
      have hdone : Placed (state.modifyCall closure.owner Call.setDone) :=
        hinv.placed.modifyCall fun _ _ => .inr rfl
      refine hdone.modifyClosure hclosure ?_ trivial
      simp [hphase, ClosurePhase.waits]

/-- A driver starts the front closure of its queue. -/
theorem RunInv.take {state : State} (hinv : RunInv state) {pool index : ℕ}
    {rest : List ℕ} (hqueue : state.queues pool = index :: rest)
    (savedTL : Option ℕ) :
    RunInv (State.modifyClosure { state with
      queues := Function.update state.queues pool rest } index fun closure =>
        { closure with phase := .body, savedTL }) := by
  obtain ⟨closure, hclosure, -, hphase⟩ :=
    (hinv.placed.queued pool).2 index (by simp [hqueue])
  exact ⟨hinv.gate.advanceClosure hclosure rfl rfl
      (by simp [hphase, ClosurePhase.counted])
      (by simp [hphase, ClosurePhase.carries])
      (by simp [hphase, ClosurePhase.wakes]),
    hinv.placed.take hqueue fun _ => rfl⟩

/-- The next step of `syncWait`. -/
theorem RunInv.advanceCall {state after : State} (hinv : RunInv state)
    {thread : ThreadId} {index : ℕ} {call : Call}
    (hcall : state.calls[index]? = some call)
    (hstep : state.advanceCall thread index call = some after) :
    RunInv after := by
  unfold State.advanceCall at hstep
  split at hstep
  next => simp at hstep
  next closure hphase =>
    obtain rfl := Option.some.inj hstep
    exact hinv.submit (.call index) ⟨call, hcall, hphase⟩
  next hphase =>
    obtain rfl := Option.some.inj hstep
    refine (hinv.modifyThread thread _).modifyCall hcall trivial ?_
    rintro counted carrying waking ⟨hcount, htoken, -, -⟩
    rw [hphase] at htoken
    exact ⟨hcount, htoken, nofun, nofun⟩
  next hphase =>
    obtain rfl := Option.some.inj hstep
    refine hinv.modifyCall hcall trivial ?_
    rintro counted carrying waking ⟨hcount, htoken, -, -⟩
    rw [hphase] at htoken
    exact ⟨hcount, htoken, id, nofun⟩
  next seen hphase =>
    split_ifs at hstep with hfinal hsame
    · obtain rfl := Option.some.inj hstep
      refine (hinv.modifyThread thread _).modifyCall hcall trivial ?_
      rintro counted carrying waking ⟨hcount, htoken, hsaw, -⟩
      rw [hphase] at htoken hsaw
      exact ⟨hcount, htoken, fun _ => hsaw hfinal, nofun⟩
    · obtain rfl := Option.some.inj hstep
      refine hinv.modifyCall hcall trivial ?_
      rintro counted carrying waking ⟨hcount, htoken, -, -⟩
      rw [hphase] at htoken
      exact ⟨hcount, htoken, nofun, fun _ hgate =>
        absurd (hsame ▸ hgate) hfinal⟩
    · obtain rfl := Option.some.inj hstep
      refine hinv.modifyCall hcall trivial ?_
      rintro counted carrying waking ⟨hcount, htoken, -, -⟩
      rw [hphase] at htoken
      exact ⟨hcount, htoken, nofun, nofun⟩
  next => simp at hstep
  next => simp at hstep

/-- A closure that moves on without a change for its call. -/
theorem RunInv.modifyClosure {state : State} (hinv : RunInv state)
    {index : ℕ} {closure : Closure} {phase : ClosurePhase}
    (hclosure : state.closures[index]? = some closure)
    (hwaits : closure.phase.waits = false) (hidle : phase.idle)
    (hcounted : phase.counted = closure.phase.counted)
    (hcarries : phase.carries = closure.phase.carries)
    (hwakes : phase.wakes = closure.phase.wakes) :
    RunInv (state.modifyClosure index (·.at phase)) where
  gate := hinv.gate.advanceClosure hclosure rfl rfl hcounted hcarries hwakes
  placed := hinv.placed.modifyClosure hclosure hwaits hidle

/-- The next step of a closure on its driver. -/
theorem RunInv.advanceClosure {state after : State} (hinv : RunInv state)
    {thread : ThreadId} {index : ℕ} {closure : Closure}
    (hclosure : state.closures[index]? = some closure)
    (hstep : state.advanceClosure thread index closure = some after) :
    RunInv after := by
  have hgate : closure.gate = some closure.owner :=
    (hinv.gate.gated closure (List.mem_iff_getElem?.2 ⟨index, hclosure⟩)).1
  unfold State.advanceClosure at hstep
  split at hstep
  next => simp at hstep
  next => simp at hstep
  next hphase =>
    obtain rfl := Option.some.inj hstep
    exact hinv.modifyClosure hclosure (by rw [hphase]; rfl) trivial
      (by rw [hphase]; rfl) (by rw [hphase]; rfl) (by rw [hphase]; rfl)
  next => simp at hstep
  next submitted hphase =>
    obtain rfl := Option.some.inj hstep
    exact hinv.submit (.closure index) ⟨closure, hclosure, hphase⟩
  next hphase =>
    simp only [hgate] at hstep
    obtain rfl := Option.some.inj hstep
    exact (hinv.modifyThread thread _).modifyClosure hclosure
      (by rw [hphase]; rfl) trivial (by rw [hphase]; rfl)
      (by rw [hphase]; rfl) (by rw [hphase]; rfl)
  next hphase =>
    obtain ⟨call, hcall⟩ := hinv.gate.owner_call hclosure
    simp only [hgate, hcall] at hstep
    have hwaits : closure.phase.waits = false := by rw [hphase]; rfl
    have hplaced : Placed (state.modifyCall closure.owner Call.countOut) :=
      hinv.placed.modifyCall fun _ _ => .inr rfl
    split_ifs at hstep with hlast
    · obtain rfl := Option.some.inj hstep
      exact ⟨hinv.gate.leave hclosure hphase hcall (.inl rfl),
        hplaced.modifyClosure hclosure hwaits trivial⟩
    · obtain rfl := Option.some.inj hstep
      have hmoved : RunInv ((state.modifyCall closure.owner
          Call.countOut).modifyClosure index (·.at .finished)) :=
        ⟨hinv.gate.leave hclosure hphase hcall (.inr ⟨rfl, hlast⟩),
          hplaced.modifyClosure hclosure hwaits trivial⟩
      exact hmoved.modifyThread thread Thread.pop
  next hphase =>
    simp only [hgate] at hstep
    obtain rfl := Option.some.inj hstep
    have hplaced : Placed (state.modifyCall closure.owner Call.notify) :=
      hinv.placed.modifyCall fun call _ => call.notify_phase
    have hmoved : RunInv ((state.modifyCall closure.owner
        Call.notify).modifyClosure index (·.at .finished)) :=
      ⟨hinv.gate.notify hclosure hphase,
        hplaced.modifyClosure hclosure (by rw [hphase]; rfl) trivial⟩
    exact hmoved.modifyThread thread Thread.pop
  next => simp at hstep

theorem RunInv.step {before after : State} {action : Action}
    {event : Option Unit} (hinv : RunInv before)
    (hown : AwaitsOwn before action)
    (hstep : step before action = some (after, event)) : RunInv after := by
  cases action with
  | build thread pool =>
      simp only [SyncWait.step] at hstep
      split_ifs at hstep
      obtain ⟨rfl, -⟩ := Prod.mk.inj (Option.some.inj hstep)
      exact ⟨hinv.gate, hinv.placed.calls rfl rfl fun _ call hcall =>
        .inr ⟨call, hcall, rfl⟩⟩
  | syncWait thread =>
      simp only [SyncWait.step] at hstep
      split_ifs at hstep
      obtain ⟨rfl, -⟩ := Prod.mk.inj (Option.some.inj hstep)
      refine ⟨hinv.gate.append _, hinv.placed.calls rfl rfl ?_⟩
      intro index call hcall
      rcases lt_or_ge index before.calls.length with hbound | hbound
      · rw [List.getElem?_append_left hbound] at hcall
        exact .inr ⟨call, hcall, rfl⟩
      · rw [List.getElem?_append_right hbound, List.getElem?_singleton] at hcall
        left
        split_ifs at hcall
        obtain rfl := Option.some.inj hcall
        trivial
  | await thread index =>
      simp only [SyncWait.step, Option.bind_eq_bind, Option.bind_eq_some_iff,
        Option.pure_def, Option.some.injEq, Prod.mk.injEq] at hstep
      obtain ⟨frame, hframe, owner, hcoroutine, awaiter, hawaiter, rfl, -⟩ :=
        hstep
      exact hinv.await hcoroutine
        (hown frame owner awaiter hframe hcoroutine hawaiter)
  | complete thread =>
      simp only [SyncWait.step, Option.bind_eq_bind, Option.bind_eq_some_iff,
        Option.pure_def, Option.some.injEq, Prod.mk.injEq] at hstep
      obtain ⟨frame, -, owner, hcoroutine, rfl, -⟩ := hstep
      exact hinv.complete hcoroutine
  | take pool =>
      simp only [SyncWait.step] at hstep
      split at hstep
      next index rest hstack hqueue =>
        simp only [Option.bind_eq_bind, Option.bind_eq_some_iff,
          Option.pure_def, Option.some.injEq, Prod.mk.injEq] at hstep
        obtain ⟨closure, -, rfl, -⟩ := hstep
        have htaken := hinv.take hqueue
          (before.threads (.driver pool)).tlSyncWaitGate
        exact ⟨htaken.gate, htaken.placed.calls rfl rfl fun _ call hcall =>
          .inr ⟨call, hcall, rfl⟩⟩
      next => simp at hstep
  | advance thread =>
      simp only [SyncWait.step, Option.bind_eq_bind,
        Option.bind_eq_some_iff] at hstep
      obtain ⟨frame, -, hstep⟩ := hstep
      cases frame with
      | call index =>
          simp only [Option.bind_eq_some_iff, Option.pure_def,
            Option.some.injEq, Prod.mk.injEq] at hstep
          obtain ⟨call, hcall, next, hnext, rfl, -⟩ := hstep
          exact hinv.advanceCall hcall hnext
      | closure index =>
          simp only [Option.bind_eq_some_iff, Option.pure_def,
            Option.some.injEq, Prod.mk.injEq] at hstep
          obtain ⟨closure, hclosure, next, hnext, rfl, -⟩ := hstep
          exact hinv.advanceClosure hclosure hnext
  | unblock thread =>
      simp only [SyncWait.step, Option.bind_eq_bind,
        Option.bind_eq_some_iff] at hstep
      obtain ⟨frame, -, hstep⟩ := hstep
      cases frame with
      | closure => simp at hstep
      | call index =>
          simp only [Option.bind_eq_some_iff, Option.pure_def,
            Option.some.injEq, Prod.mk.injEq] at hstep
          obtain ⟨call, hcall, rfl, -⟩ := hstep
          refine ⟨hinv.gate.modifyCall hcall fun hcallInv =>
            hcallInv.notify _, hinv.placed.modifyCall fun other hother => ?_⟩
          obtain rfl : call = other := by simpa [hcall] using hother
          exact call.notify_phase

theorem runInv_start : RunInv {} where
  gate := ⟨nofun, nofun⟩
  placed := by
    refine ⟨?_, fun _ => ⟨List.nodup_nil, nofun⟩⟩
    intro frame index hsubmits
    cases frame <;> obtain ⟨_, hnone, -⟩ := hsubmits <;> simp at hnone

/-- When every awaiter is built inside the call whose coroutine awaits it, no
wrapper frame goes too early and no caller is left asleep. -/
theorem gateSound_of_run {trace : List Unit} {state : State}
    (run : Run coroutines AwaitsOwn {} trace state) : GateSound state := by
  have hinv : RunInv state :=
    run.invariant (fun _ state => RunInv state) runInv_start
      fun hinv hown hstep => hinv.step hown hstep
  exact hinv.gate.gateSound

/-- A call inside a body, and an await on the way back from another one: both
calls return. -/
def nestedCalls : List Action :=
  List.flatten
    [[.syncWait (.user 0), .build (.user 0) 0, .await (.user 0) 0],
      List.replicate 4 (.advance (.user 0)),
      [.take 0, .syncWait (.driver 0), .build (.driver 0) 1,
        .await (.driver 0) 1],
      List.replicate 2 (.advance (.driver 0)),
      [.take 1, .advance (.driver 1), .complete (.driver 1)],
      List.replicate 3 (.advance (.driver 1)),
      List.replicate 2 (.advance (.driver 0)),
      [.advance (.driver 0), .build (.driver 0) 1, .await (.driver 0) 2,
        .advance (.driver 0), .take 1, .advance (.driver 1),
        .complete (.driver 1)],
      List.replicate 2 (.advance (.driver 1)),
      List.replicate 3 (.advance (.driver 0)),
      List.replicate 2 (.advance (.user 0))]

/-- `AwaitsOwn` as a test. -/
def awaitsOwn (state : State) : Action → Bool
  | .await thread index =>
      ((state.threads thread).stack.head?.bind state.coroutine).all
        fun owner => (state.awaiters[index]?).all
          fun awaiter => awaiter.gate == some owner
  | _ => true

theorem awaitsOwn_of_check {state : State} {action : Action}
    (hcheck : awaitsOwn state action = true) : AwaitsOwn state action := by
  cases action with
  | await thread index =>
      intro frame owner awaiter hframe hcoroutine hawaiter
      simpa [awaitsOwn, hframe, hcoroutine, hawaiter] using hcheck
  | _ => trivial

theorem gateSound_nestedCalls :
    ∃ trace state, Run coroutines AwaitsOwn {} trace state ∧
      GateSound state ∧
      state.calls.map Call.phase = [.returned, .returned] := by
  obtain ⟨trace, state, run, hphases⟩ : ∃ trace state,
      Run coroutines AwaitsOwn {} trace state ∧
      decide (state.calls.map Call.phase = [.returned, .returned]) = true :=
    run_of_checked coroutines awaitsOwn (fun _ => True)
      (fun _ => awaitsOwn_of_check) (fun _ _ _ => trivial) {} trivial
      nestedCalls _ (by decide +kernel)
  exact ⟨trace, state, run, gateSound_of_run run, of_decide_eq_true hphases⟩

end Citor.SyncWait
