import Citor.ForkJoin.SegmentMoves

/-!
# A fork-join call is its sequential program

Where tasks that may overlap do not interfere, one thread's call leaves the
memory behind that its program makes with every call replaced by a loop, for
every number of slots, every steal and every interleaving.
-/

namespace Citor.ForkJoin

open Citor.Interleaving Citor.Census
open SharedMemory (withMemory begin Commutes Separated Bracketed perform)

variable {Exn : Type}
variable {participants : ℕ} {token : Option ℕ} {count : ℕ}
variable {child : ℕ → Prog Exn}

/-! ## Steps of the observed machine -/

section Steps

variable {before after : Observed Exn} {move : Move}
variable {emitted : Option (Observation Exn)}

/-- The thread's call, or an effect in a slot. -/
theorem oneCall_cases
    (hstep : (oneCall participants token count child).step before move =
      some (after, emitted)) :
    ∃ action event, step participants before.state action =
        some (after.state, event) ∧
      (before.state.callCount = 0 ∧ 0 < participants ∧ event = none ∧
          after.state = before.state.openCall 0 false token count child [] ∧
          after.tree = before.tree.makes ([], 0) count child ∧
          emitted = some (none, none) ∨
        ∃ slot < participants, Effect before.state after.state slot event ∧
          after.tree =
            (observe before.tree (before.state.frames slot) event).1 ∧
          emitted = some (event,
            (observe before.tree (before.state.frames slot) event).2)) := by
  cases move with
  | call =>
      simp only [oneCall] at hstep
      split_ifs at hstep with hnone
      obtain ⟨⟨state, event⟩, hbase, hout⟩ := Option.map_eq_some_iff.1 hstep
      obtain ⟨rfl, rfl⟩ := Prod.mk.inj hout
      refine ⟨.start token count child, event, hbase, .inl ?_⟩
      simp only [step] at hbase
      split at hbase
      · split_ifs at hbase with hslots
        obtain ⟨rfl, rfl⟩ := Prod.mk.inj (Option.some.inj hbase)
        exact ⟨hnone, hslots, rfl, rfl, rfl, rfl⟩
      · simp at hbase
  | advance slot =>
      obtain ⟨⟨state, event⟩, hbase, hout⟩ := Option.map_eq_some_iff.1 hstep
      obtain ⟨rfl, rfl⟩ := Prod.mk.inj hout
      obtain ⟨hslot, heffect⟩ := effect_advance hbase
      exact ⟨_, event, hbase, .inr ⟨slot, hslot, heffect, rfl, rfl⟩⟩
  | steal slot victim hit =>
      obtain ⟨⟨state, event⟩, hbase, hout⟩ := Option.map_eq_some_iff.1 hstep
      obtain ⟨rfl, rfl⟩ := Prod.mk.inj hout
      obtain ⟨hslot, heffect⟩ := effect_steal hbase
      exact ⟨_, event, hbase, .inr ⟨slot, hslot, heffect, rfl, rfl⟩⟩
  | wake slot =>
      obtain ⟨⟨state, event⟩, hbase, hout⟩ := Option.map_eq_some_iff.1 hstep
      obtain ⟨rfl, rfl⟩ := Prod.mk.inj hout
      obtain ⟨hslot, heffect⟩ := effect_wake hbase
      exact ⟨_, event, hbase, .inr ⟨slot, hslot, heffect, rfl, rfl⟩⟩

end Steps

/-! ## Runs -/

/-- The segments of the whole call in the order of the program. -/
abbrev elided (count : ℕ) (child : ℕ → Prog Exn) : List Segment :=
  serialCall ([], 0) count child

section Runs

variable {events : List (Event Exn)} {opened closed : List Segment}
variable {state : State Exn} {tree : Tree Exn}

theorem placed_begun (root : List (Segment × List Segment)) :
    Placed participants root [] [] [] (begun Exn).state (begun Exn).tree where
  calls := rfl
  count _ := rfl
  child _ := rfl
  quiet _ := rfl
  sound _ _ := ⟨by simp [begun, start], .nil⟩
  called := by simp [begun]
  sites := by simp [begun]
  made := by simp [begun]
  once := List.nodup_nil
  known := by simp
  ended := by simp
  finished := by simp

/-- The thread makes its call. -/
theorem Placed.call
    (hplaced : Placed participants (orderedCall [] ([], 0) count child) events
      opened closed state tree)
    (hinv : Inv participants events state) (hnone : state.callCount = 0) :
    Placed participants (orderedCall [] ([], 0) count child) events opened
      closed (state.openCall 0 false token count child [])
      (tree.makes ([], 0) count child) := by
  have hzero : tree.calls = 0 := hplaced.calls.trans hnone
  have hfirst : ∀ call < (tree.makes ([], 0) count child).calls,
      call = tree.calls := by
    intro call hcall
    obtain hold | hnew := tree.makes_cases _ _ _ hcall
    · exact absurd hold (by omega)
    · exact hnew
  constructor
  · exact congrArg (· + 1) hplaced.calls
  · exact fun call => (hplaced.makes_openCall _ _ _ _ _ _ call).1
  · exact fun call => (hplaced.makes_openCall _ _ _ _ _ _ call).2
  · exact hplaced.quiet
  · intro slot hslot
    by_cases hsame : slot = 0
    · subst hsame
      simp only [State.openCall, Function.update_self]
      have hempty : Sound (orderedCall [] ([], 0) count child) opened closed
          (tree.makes ([], 0) count child) ([] : List (Frame Exn)) :=
        ⟨by simp, .nil⟩
      exact hempty.cons (entryFrame_outside _ _).ne_body (by simp)
    · simp only [State.openCall, Function.update_of_ne hsame]
      have hempty : state.frames slot = [] := by
        apply List.eq_nil_iff_forall_not_mem.2
        intro frame hmem
        have hlt := hplaced.frame_call_lt hinv hmem
        omega
      rw [hempty]
      exact ⟨by simp, .nil⟩
  · intro call hcall
    rw [hfirst call hcall, Tree.makes_site, Tree.makes_count, Tree.makes_child]
    exact ⟨[], List.nil_subset _, List.Subset.refl _⟩
  · intro call hcall other hother _
    rw [hfirst call hcall, hfirst other hother]
  · intro call hcall
    rw [hfirst call hcall, Tree.makes_site]
    exact .inl rfl
  · exact hplaced.once
  · intro segment hmem
    obtain ⟨task, htask, -⟩ := hplaced.known segment hmem
    omega
  · intro task hmem
    have hlt := hplaced.call_lt_of_ended hinv hmem
    omega
  · intro call result hmem
    have hlt := hplaced.call_lt_of_returned hinv hmem
    omega

end Runs

section Observations

variable {trace : List (Observation Exn)} {observed after : Observed Exn}
variable {move : Move} {emitted : Option (Observation Exn)}

/-- No body throws. -/
def Calm (trace : List (Observation Exn)) : Prop :=
  ∀ task thrown, .ended task (some thrown) ∉ eventsOf trace

/-- The first call is the thread's. -/
def Tree.Rooted (count : ℕ) (child : ℕ → Prog Exn) (tree : Tree Exn) : Prop :=
  0 < tree.calls → tree.site 0 = ([], 0) ∧ tree.count 0 = count ∧
    tree.child 0 = child

theorem Tree.Rooted.observe {tree : Tree Exn}
    (hrooted : tree.Rooted count child)
    {frames : List (Frame Exn)} (event : Option (Event Exn))
    (hmade : ∀ frame ∈ frames, frame.call < tree.calls) :
    (observe tree frames event).1.Rooted count child := by
  cases frames with
  | nil => exact hrooted
  | cons frame rest =>
      have hcalls : 0 < tree.calls :=
        Nat.zero_lt_of_lt (hmade frame List.mem_cons_self)
      have hsame : (ForkJoin.observe tree (frame :: rest) event).1.site 0 =
            tree.site 0 ∧
          (ForkJoin.observe tree (frame :: rest) event).1.count 0 =
            tree.count 0 ∧
          (ForkJoin.observe tree (frame :: rest) event).1.child 0 =
            tree.child 0 := by
        unfold ForkJoin.observe
        split <;> simp [Tree.makes, Tree.goes, hcalls.ne]
      rw [Tree.Rooted, hsame.1, hsame.2.1, hsame.2.2]
      exact fun _ => hrooted hcalls

def Event.calm : Event Exn → Bool
  | .ended _ (some _) => false
  | _ => true

/-- What the observed machine keeps. -/
structure Seen (participants count : ℕ) (child : ℕ → Prog Exn)
    (trace : List (Observation Exn)) (observed : Observed Exn) : Prop where
  run : Reaches (forkJoin Exn participants) (start Exn fun _ => false)
    (eventsOf trace) observed.state
  rooted : Calm trace → observed.tree.Rooted count child
  placed : Calm trace → Placed participants (orderedCall [] ([], 0) count child)
    (eventsOf trace) (trace.filterMap segments.opens)
    (trace.filterMap segments.closes) observed.state observed.tree

theorem eventsOf_append (event : Option (Event Exn)) (mark : Option Mark) :
    eventsOf (trace ++ [(event, mark)]) = eventsOf trace ++ event.toList := by
  cases event <;> simp [eventsOf]

theorem opens_append (event : Option (Event Exn)) (mark : Option Mark) :
    (trace ++ [(event, mark)]).filterMap segments.opens =
      trace.filterMap segments.opens ++ (mark.bind Mark.opened).toList := by
  rw [List.filterMap_append]
  cases hmark : mark.bind Mark.opened <;> simp [segments, hmark]

theorem closes_append (event : Option (Event Exn)) (mark : Option Mark) :
    (trace ++ [(event, mark)]).filterMap segments.closes =
      trace.filterMap segments.closes ++ (mark.bind Mark.closed).toList := by
  rw [List.filterMap_append]
  cases hmark : mark.bind Mark.closed <;> simp [segments, hmark]

/-- One step of the observed machine. -/
theorem kept_step (hseen : Seen participants count child trace observed)
    (hstep : (oneCall participants token count child).step observed move =
      some (after, emitted)) :
    ∃ event mark, emitted = some (event, mark) ∧
      (∃ action, step participants observed.state action =
        some (after.state, event)) ∧
      (Calm (trace ++ [(event, mark)]) →
        Kept participants (orderedCall [] ([], 0) count child) (eventsOf trace)
          (trace.filterMap segments.opens) (trace.filterMap segments.closes)
          after.state event (after.tree, mark) ∧
        after.tree.Rooted count child) := by
  have hinv := inv_run_of_reaches hseen.run
  obtain ⟨action, event, hbase, ⟨hnone, -, rfl, hstate, htree, rfl⟩ |
    ⟨slot, hslot, heffect, htree, rfl⟩⟩ := oneCall_cases hstep
  · refine ⟨none, none, rfl, ⟨action, hbase⟩, fun hcalm => ?_⟩
    have hplaced := hseen.placed fun task thrown hmem =>
      hcalm task thrown (by simpa [eventsOf_append] using hmem)
    rw [hstate, htree]
    constructor
    · apply Placed.kept
      rw [Option.toList_none, List.append_nil]
      exact hplaced.call hinv hnone
    · intro _
      rw [← hplaced.calls] at hnone
      rw [← hnone, Tree.makes_site, Tree.makes_count, Tree.makes_child]
      exact ⟨rfl, rfl, rfl⟩
  · refine ⟨event, _, rfl, ⟨action, hbase⟩, fun hcalm => ?_⟩
    have hcalmed : Calm trace := fun task thrown hmem =>
      hcalm task thrown (by simp [eventsOf_append, hmem])
    have hplaced := hseen.placed hcalmed
    rw [htree]
    constructor
    · apply kept_of_effect hplaced hinv hslot heffect
      · intro task thrown
        rw [← eventsOf_append]
        exact hcalm task thrown
      · rintro call result rfl
        exact hinv.joined hbase
    · exact (hseen.rooted hcalmed).observe event fun frame hmem =>
        hplaced.frame_call_lt hinv hmem

theorem seen_of_run
    (run : Reaches (oneCall participants token count child) (begun Exn) trace
      observed) : Seen participants count child trace observed := by
  apply run.invariant (Seen participants count child)
  · exact ⟨.start, fun _ => by simp [begun, Tree.Rooted],
      fun _ => placed_begun _⟩
  · intro trace before move after emitted hseen _ hstep
    obtain ⟨event, mark, rfl, ⟨action, hbase⟩, hkept⟩ := kept_step hseen hstep
    rw [Option.toList_some]
    constructor
    · rw [eventsOf_append]
      exact hseen.run.next trivial hbase
    · exact fun hcalm => (hkept hcalm).2
    · intro hcalm
      rw [eventsOf_append, opens_append, closes_append]
      exact (hkept hcalm).1.placed

/-- Where a segment opens or closes. -/
theorem marks_of_run
    (run : Reaches (oneCall participants token count child) (begun Exn) trace
      observed) (hcalm : Calm trace) :
    ∀ earlier event later, trace = earlier ++ event :: later →
      (∀ segment, segments.opens event = some segment →
        ∃ front, front ⊆ earlier.filterMap segments.closes ∧
          (segment, front) ∈ orderedCall [] ([], 0) count child) ∧
      ∀ segment, segments.closes event = some segment →
        segment ∈ earlier.filterMap segments.opens := by
  intro earlier event later hsplit
  have hmarked := run.at_event (Seen participants count child)
    (fun earlier event => Calm (earlier ++ [event]) →
      (∀ segment, segments.opens event = some segment →
        ∃ front, front ⊆ earlier.filterMap segments.closes ∧
          (segment, front) ∈ orderedCall [] ([], 0) count child) ∧
      ∀ segment, segments.closes event = some segment →
        segment ∈ earlier.filterMap segments.opens)
    seen_of_run ?_ earlier event later hsplit
  · apply hmarked
    intro task thrown hmem
    apply hcalm task thrown
    obtain ⟨emitted, hemitted, hevent⟩ := List.mem_filterMap.1 hmem
    apply List.mem_filterMap.2 ⟨emitted, _, hevent⟩
    rw [hsplit]
    simp only [List.mem_append, List.mem_cons] at hemitted ⊢
    tauto
  · intro trace before move after emitted hseen _ hstep hcalm
    obtain ⟨event, mark, hsome, -, hkept⟩ := kept_step hseen hstep
    obtain rfl := Option.some.inj hsome
    obtain ⟨-, hopens, hcloses⟩ := (hkept hcalm).1
    constructor
    · intro segment hopen
      apply hopens
      obtain ⟨mark, rfl, hmark⟩ := Option.bind_eq_some_iff.1 hopen
      cases mark with
      | opens other => rw [Option.some.inj hmark]
      | closes other => simp [Mark.opened] at hmark
    · intro segment hclose
      apply hcloses
      obtain ⟨mark, rfl, hmark⟩ := Option.bind_eq_some_iff.1 hclose
      cases mark with
      | opens other => simp [Mark.closed] at hmark
      | closes other => rw [Option.some.inj hmark]

/-! ## The whole call -/

/-- The call has returned and nothing was thrown. -/
structure Returned (trace : List (Observation Exn)) : Prop where
  calm : Calm trace
  returned : ∃ result, .returned 0 result ∈ eventsOf trace

theorem map_fst_elided (count : ℕ) (child : ℕ → Prog Exn) :
    (orderedCall [] ([], 0) count child).map Prod.fst = elided count child :=
  map_fst_orderedCall [] ([], 0) count child

theorem bracketed_of_returned
    (run : Reaches (oneCall participants token count child) (begun Exn) trace
      observed) (hreturned : Returned trace) :
    Bracketed segments trace (elided count child) := by
  have hseen := seen_of_run run
  have hinv := inv_run_of_reaches hseen.run
  have hplaced := hseen.placed hreturned.calm
  have hmarks := marks_of_run run hreturned.calm
  obtain ⟨result, hend⟩ := hreturned.returned
  have hclosed : elided count child ⊆ trace.filterMap segments.closes := by
    have hsub := hplaced.finished 0 result hend
    obtain ⟨hsite, hcount, hchild⟩ := hseen.rooted hreturned.calm
      (hplaced.call_lt_of_returned hinv hend)
    rwa [hsite, hcount, hchild] at hsub
  have hmatched : ∀ earlier event later, trace = earlier ++ event :: later →
      ∀ segment, segments.closes event = some segment →
        segment ∈ earlier.filterMap segments.opens :=
    fun earlier event later hsplit => (hmarks earlier event later hsplit).2
  refine ⟨?_, hclosed, hmatched⟩
  rw [List.perm_ext_iff_of_nodup hplaced.once (nodup_serialCall _ _ _)]
  intro segment
  constructor
  · intro hopen
    obtain ⟨event, hevent, hopens⟩ := List.mem_filterMap.1 hopen
    obtain ⟨earlier, later, hsplit⟩ := List.append_of_mem hevent
    obtain ⟨front, -, hroot⟩ :=
      (hmarks earlier event later hsplit).1 segment hopens
    have hfirst := List.mem_map_of_mem (f := Prod.fst) hroot
    rwa [map_fst_elided] at hfirst
  · intro hmem
    obtain ⟨event, hevent, hcloses⟩ := List.mem_filterMap.1 (hclosed hmem)
    obtain ⟨earlier, later, hsplit⟩ := List.append_of_mem hevent
    have hopen := hmatched earlier event later hsplit segment hcloses
    rw [hsplit, List.filterMap_append]
    exact List.mem_append_left _ hopen

/-- What the joins put in front of a segment is kept away from it. -/
theorem separated_of_run
    (run : Reaches (oneCall participants token count child) (begun Exn) trace
      observed) (hcalm : Calm trace) {first : Segment}
    {entry : Segment × List Segment}
    (hentry : entry ∈ orderedCall [] ([], 0) count child)
    (hfirst : first ∈ entry.2) : Separated segments trace first entry.1 := by
  intro earlier event later hsplit hopens
  obtain ⟨front, hfront, hroot⟩ :=
    (marks_of_run run hcalm earlier event later hsplit).1 entry.1 hopens
  have hnodup : ((orderedCall [] ([], 0) count child).map Prod.fst).Nodup := by
    rw [map_fst_elided]
    exact nodup_serialCall _ _ _
  have hsame : entry = (entry.1, front) :=
    List.inj_on_of_nodup_map hnodup hentry hroot rfl
  rw [hsame] at hfirst
  exact hfront hfirst

/-- If segments below different tasks of one call do not interfere with each
other, a call that returns without a throw, and for which nobody requests a
stop, leaves the memory behind that the program makes task by task. -/
theorem callSerial_of_run {Memory : Type*} (participants : ℕ)
    (token : Option ℕ) (count : ℕ) (child : ℕ → Prog Exn)
    (work : Segment → List (Memory → Memory))
    (hwork : ∀ first ∈ elided count child, ∀ second ∈ elided count child,
      Apart first second → Commutes (work second) (work first))
    {memory : Memory} {trace : List (Observation Exn)}
    {state : SharedMemory.State (Observed Exn) Segment Memory}
    (run : Reaches
      (withMemory (oneCall participants token count child) segments work)
      (begin (begun Exn) memory) trace state)
    (hreturned : Returned trace) :
    state.memory = perform ((elided count child).flatMap work) memory := by
  have hcontrol := SharedMemory.control_of_run run
  apply SharedMemory.serial_of_run (nodup_serialCall _ _ _) run
  · exact bracketed_of_returned hcontrol hreturned
  · change (elided count child).Pairwise _
    rw [← map_fst_elided, List.pairwise_map]
    apply (pairwise_orderedCall [] ([], 0) count child).imp_of_mem
    intro first second hfirst hsecond hsettles
    have helided : ∀ entry ∈ orderedCall [] ([], 0) count child,
        entry.1 ∈ elided count child := by
      intro entry hentry
      rw [← map_fst_elided]
      exact List.mem_map_of_mem hentry
    cases hsettles with
    | inl hfront =>
        exact .inr (separated_of_run hcontrol hreturned.calm hsecond hfront)
    | inr hapart =>
        exact .inl (hwork _ (helided _ hfirst) _ (helided _ hsecond) hapart)

end Observations

/-- The first of two tasks makes a call of two itself. -/
def twoAndTwo (task : ℕ) : Prog ℕ :=
  if task = 0 then .fork none 2 (fun _ => .done none) fun _ => .done none
  else .done none

/-- The inner tasks add to the left cell, which their caller sets before and
doubles afterwards; the other task has the right cell. -/
def leftAndRight (segment : Segment) : List (ℕ × ℕ → ℕ × ℕ) :=
  if segment.path = [(0, 1)] then
    [fun (left, right) => (left, right + 2),
      fun (left, right) => (left, right + 1)]
  else if segment.path.length = 2 then [fun (left, right) => (left + 1, right)]
  else if segment.index = 0 then [fun (_, right) => (1, right)]
  else [fun (left, right) => (2 * left, right)]

/-- The worker takes the task that calls, the caller takes one of that call's
tasks. -/
def crossing : List Move :=
  List.flatten
    [[.call], List.replicate 3 (.advance 0), [.wake 1],
      List.replicate 2 (.advance 1), [.steal 1 0 true],
      List.replicate 4 (.advance 1), List.replicate 8 (.advance 0),
      [.steal 0 1 true], List.replicate 2 (.advance 0),
      List.replicate 4 (.advance 1), List.replicate 2 (.advance 0),
      List.replicate 6 (.advance 1), List.replicate 3 (.advance 0)]

theorem callSerial_twoAndTwo :
    ∃ trace state, Reaches
      (withMemory (oneCall 2 none 2 twoAndTwo) segments leftAndRight)
      (begin (begun ℕ) (0, 0)) trace state ∧ state.memory = (6, 3) := by
  obtain ⟨trace, control, hbase, hcheck⟩ :=
    reaches_of_check (oneCall 2 none 2 twoAndTwo) (begun ℕ) crossing
      (fun trace _ => (eventsOf trace).contains (.returned 0 none) &&
        (eventsOf trace).all Event.calm) (by decide +kernel)
  have hlift : ∃ state, Reaches
      (withMemory (oneCall 2 none 2 twoAndTwo) segments leftAndRight)
      (begin (begun ℕ) (0, 0)) trace state ∧ state.control = control :=
    SharedMemory.exists_run hbase (0, 0)
  obtain ⟨state, run, rfl⟩ := hlift
  simp only [Bool.and_eq_true, List.contains_iff_mem, List.all_eq_true]
    at hcheck
  obtain ⟨hreturned, hcalm⟩ := hcheck
  refine ⟨trace, state, run, ?_⟩
  rw [callSerial_of_run 2 none 2 twoAndTwo leftAndRight ?_ run]
  · decide +kernel
  · exact ⟨fun task thrown hmem => by
      simpa [Event.calm] using hcalm _ hmem, none, hreturned⟩
  · have hpairs : ∀ first ∈ elided 2 twoAndTwo,
        ∀ second ∈ elided 2 twoAndTwo, ¬ first.path <+: second.path →
        ¬ second.path <+: first.path →
        first.path = [(0, 1)] ∨ second.path = [(0, 1)] ∨
          first.path.length = 2 ∧ second.path.length = 2 := by
      decide +kernel
    intro first hfirst second hsecond hapart f hf g hg memory
    obtain ⟨hfront, hback⟩ := hapart.branches
    have hpair := hpairs first hfirst second hsecond hfront hback
    have hdistinct : ¬ (first.path = [(0, 1)] ∧ second.path = [(0, 1)]) := by
      rintro ⟨hone, htwo⟩
      rw [hone, htwo] at hfront
      exact hfront List.prefix_rfl
    obtain ⟨left, right⟩ := memory
    unfold leftAndRight at hf hg
    split_ifs at hf hg <;>
      simp only [List.mem_cons, List.not_mem_nil, or_false] at hf hg <;>
      grind

end Citor.ForkJoin
