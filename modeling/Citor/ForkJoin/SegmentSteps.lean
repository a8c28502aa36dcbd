import Citor.ForkJoin.SegmentRuns

/-!
# Every step keeps the tasks in their places

One lemma for each effect a step can have.
-/

namespace Citor.ForkJoin

open Citor.Interleaving Citor.Census

variable {Exn : Type}
variable {participants slot : ℕ} {root : List (Segment × List Segment)}
variable {events : List (Event Exn)} {opened closed : List Segment}
variable {before after : State Exn} {tree : Tree Exn}
variable {event : Option (Event Exn)} {task : Task}
variable {rest : List (Frame Exn)}

/-! ## Tasks and their frames -/

/-- No other frame runs the task that the frame on top runs. -/
theorem Inv.runs_alone (hinv : Inv participants events before)
    (hslot : slot < participants) {old : List (Frame Exn)}
    (htop : before.frames slot = old ++ rest)
    (hruns : weigh (Frame.runs task) old = 1) :
    (∀ frame ∈ rest, frame.runs task = 0) ∧
      ∀ other < participants, other ≠ slot →
        ∀ frame ∈ before.frames other, frame.runs task = 0 := by
  have hrunning := hinv.places.running task
  have hran := hinv.places.ranCount_le task
  have hsplit := census_update hslot (Frame.runs task) before.frames rest
  rw [htop, weigh_append, hruns] at hsplit
  simp only [State.total, census_zero] at hrunning
  -- nothing is left once the top is taken away
  have hnone : census participants (Frame.runs task)
      (Function.update before.frames slot rest) = 0 := by omega
  constructor
  · intro frame hmem
    have hheld : frame ∈ Function.update before.frames slot rest slot := by
      simpa using hmem
    have hle := le_census hslot (Frame.runs task) hheld
    omega
  · intro other hother hne frame hmem
    have hheld : frame ∈ Function.update before.frames slot rest other := by
      simpa [hne] using hmem
    have hle := le_census hother (Frame.runs task) hheld
    omega

/-- Nothing runs a task that was not entered. -/
theorem Inv.idle (hinv : Inv participants events before)
    (hran : ranCount events task = 0) {other : ℕ}
    (hother : other < participants) {frame : Frame Exn} (hmem : frame ∈ before.frames other) :
    frame.runs task = 0 := by
  have hrunning := hinv.places.running task
  have hle := State.le_total hother hmem (Frame.runs task) fun _ => 0
  omega

theorem Inv.ran_of_runs (hinv : Inv participants events before)
    (hslot : slot < participants) {frame : Frame Exn}
    (hmem : frame ∈ before.frames slot) (hruns : frame.runs task = 1) :
    0 < ranCount events task := by
  have hrunning := hinv.places.running task
  have hle := le_census hslot (Frame.runs task) hmem
  simp only [State.total, census_zero] at hrunning
  omega

/-- A task whose gate is ahead has not run and is one of its call. -/
theorem Inv.unran (hinv : Inv participants events before)
    (hslot : slot < participants) {frame : Frame Exn}
    (hmem : frame ∈ before.frames slot) (hheld : frame.holdsBack task = 1) :
    ranCount events task = 0 ∧
      task.index < (before.calls task.call).count := by
  have hback := hinv.places.heldBack task
  have hle := State.le_total hslot hmem (Frame.holdsBack task) (isTask task)
  unfold State.born at hback
  split at hback
  · constructor
    · omega
    · assumption
  · omega

namespace Placed

theorem path_ne (hplaced : Placed participants root events opened closed before
    tree) {other : Task} (htask : task.call < tree.calls)
    (hother : other.call < tree.calls) (hne : task ≠ other) :
    tree.path task ≠ tree.path other := by
  intro hpath
  obtain ⟨hfirst, hlast⟩ := List.append_inj' hpath rfl
  simp only [List.cons.injEq, Prod.mk.injEq, and_true] at hlast
  have hcall := hplaced.sites task.call htask other.call hother
    (Prod.ext hfirst hlast.1)
  obtain ⟨call, index⟩ := task
  obtain ⟨otherCall, otherIndex⟩ := other
  exact hne (congrArg₂ Task.mk hcall hlast.2)

theorem path_ne_nil (tree : Tree Exn) (task : Task) : tree.path task ≠ [] := by
  simp [Tree.path]

theorem frame_call_lt
    (hplaced : Placed participants root events opened closed before tree)
    (hinv : Inv participants events before) {frame : Frame Exn}
    (hmem : frame ∈ before.frames slot) : frame.call < tree.calls := by
  rw [hplaced.calls]
  exact (hinv.places.frames slot frame hmem).1

/-- The calls of a body lie behind its start. -/
theorem ran_of_site
    (hplaced : Placed participants root events opened closed before tree)
    (htask : task.call < tree.calls) {call : ℕ} (hcall : call < tree.calls)
    (hsite : (tree.site call).1 = tree.path task) :
    0 < ranCount events task := by
  obtain hnil | ⟨other, hother, hran, hpath⟩ := hplaced.made call hcall
  · exact absurd (hsite.symm.trans hnil) (path_ne_nil tree task)
  · by_cases hsame : task = other
    · rwa [hsame]
    · exact absurd (hsite.symm.trans hpath)
        (hplaced.path_ne htask hother hsame)

end Placed

/-! ## Steps outside the bodies -/

theorem below_hands {old new lower : Frame Exn} (hhands : Hands old new)
    (hbelow : Below root closed tree old lower) :
    Below root closed tree new lower := by
  intro task via next hwait
  obtain ⟨howns, hwaiting⟩ := hbelow task via next hwait
  rw [hhands.call]
  exact ⟨hhands.call ▸ hhands.owns howns, hwaiting⟩

theorem below_outside {upper lower : Frame Exn} (houtside : lower.Outside) :
    Below root closed tree upper lower := by
  intro task via next hwait
  rw [hwait] at houtside
  exact houtside.elim

theorem Sound.tail {frame : Frame Exn}
    (hsound : Sound root opened closed tree (frame :: rest)) :
    Sound root opened closed tree rest where
  inside task via prog hmem := hsound.inside task via prog (by simp [hmem])
  chain := hsound.chain.tail

theorem Frame.Outside.ne_body {frame : Frame Exn} (houtside : frame.Outside)
    (task : Task) (via : Via) (prog : Prog Exn) :
    frame ≠ .body task via prog := by
  rintro rfl
  exact houtside

theorem entryFrame_outside (call count : ℕ) :
    (entryFrame call count : Frame Exn).Outside := by
  unfold entryFrame
  split_ifs <;> trivial

theorem Sound.cons {frame : Frame Exn}
    (hsound : Sound root opened closed tree rest)
    (hbody : ∀ task via prog, frame ≠ .body task via prog)
    (hbelow : ∀ lower ∈ rest.head?, Below root closed tree frame lower) :
    Sound root opened closed tree (frame :: rest) where
  inside task via prog hmem := by
    cases List.mem_cons.1 hmem with
    | inl hsame => exact absurd hsame.symm (hbody task via prog)
    | inr hmem => exact hsound.inside task via prog hmem
  chain := List.IsChain.cons hsound.chain hbelow

theorem Sound.shift {old new : Frame Exn}
    (hsound : Sound root opened closed tree (old :: rest))
    (houtside : new.Outside) (hhands : Hands old new) :
    Sound root opened closed tree (new :: rest) :=
  hsound.tail.cons houtside.ne_body fun _ hlower =>
    below_hands hhands (hsound.chain.rel_head? hlower)

theorem Sound.body {via : Via} {prog : Prog Exn}
    (hsound : Sound root opened closed tree rest)
    (hinside : Inside root opened closed tree task prog)
    (hbelow : ∀ lower ∈ rest.head?,
      Below root closed tree (.body task via prog) lower) :
    Sound root opened closed tree (.body task via prog :: rest) where
  inside other otherVia otherProg hmem := by
    cases List.mem_cons.1 hmem with
    | inl hsame =>
        cases hsame
        exact hinside
    | inr hmem => exact hsound.inside other otherVia otherProg hmem
  chain := List.IsChain.cons hsound.chain hbelow

theorem ranCount_le_append (task : Task) :
    ranCount events task ≤ ranCount (events ++ event.toList) task := by
  rw [ranCount_append]
  exact Nat.le_add_right _ _

/-- A step that leaves the tree alone and ends no body. -/
theorem Placed.aside
    (hplaced : Placed participants root events opened closed before tree)
    (hkeeps : Keeps before after)
    (hended : ∀ task result, event ≠ some (.ended task result))
    (hfinished : ∀ call result, event = some (.returned call result) →
      serialCall (tree.site call) (tree.count call) (tree.child call) ⊆ closed)
    {frames : List (Frame Exn)}
    (hframes : after.frames = Function.update before.frames slot frames)
    (hsound : slot < participants → Sound root opened closed tree frames) :
    Placed participants root (events ++ event.toList) opened closed after
      tree where
  calls := hplaced.calls.trans hkeeps.callCount.symm
  count call := (hplaced.count call).trans (hkeeps.calls call).count.symm
  child call := (hplaced.child call).trans (hkeeps.calls call).child.symm
  quiet token := by
    rw [hkeeps.stopped]
    exact hplaced.quiet token
  sound other hother := by
    rw [hframes]
    by_cases hsame : other = slot
    · subst hsame
      simpa using hsound hother
    · simpa [hsame] using hplaced.sound other hother
  called := hplaced.called
  sites := hplaced.sites
  made call hcall := by
    apply (hplaced.made call hcall).imp_right
    rintro ⟨task, htask, hran, hpath⟩
    exact ⟨task, htask, hran.trans_le (ranCount_le_append task), hpath⟩
  once := hplaced.once
  known segment hmem := by
    obtain ⟨task, htask, hran, hpath⟩ := hplaced.known segment hmem
    exact ⟨task, htask, hran.trans_le (ranCount_le_append task), hpath⟩
  ended task hmem := by
    obtain hold | hnew := mem_append_event hmem
    · exact hplaced.ended task hold
    · exact absurd hnew (hended task none)
  finished call result hmem := by
    obtain hold | hnew := mem_append_event hmem
    · exact hplaced.finished call result hold
    · exact hfinished call result hnew

/-! ## What a step keeps -/

/-- The invariant behind a step that was observed like this. -/
structure Kept (participants : ℕ) (root : List (Segment × List Segment))
    (events : List (Event Exn)) (opened closed : List Segment)
    (after : State Exn) (event : Option (Event Exn))
    (outcome : Tree Exn × Option Mark) : Prop where
  placed : Placed participants root (events ++ event.toList)
    (opened ++ (outcome.2.bind Mark.opened).toList)
    (closed ++ (outcome.2.bind Mark.closed).toList) after outcome.1
  /-- What has to end in front of a segment has ended. -/
  opens : ∀ segment, outcome.2 = some (.opens segment) →
    ∃ front, front ⊆ closed ∧ (segment, front) ∈ root
  closes : ∀ segment, outcome.2 = some (.closes segment) → segment ∈ opened

theorem Placed.kept
    (hplaced : Placed participants root (events ++ event.toList) opened closed
      after tree) :
    Kept participants root events opened closed after event (tree, none) :=
  ⟨by simpa using hplaced, by simp, by simp⟩

theorem observe_polls (via : Via) (token : ℕ) (next : Bool → Prog Exn) :
    observe tree (.body task via (.poll token next) :: rest) none =
      (tree, none) := by
  cases rest with
  | nil => rfl
  | cons lower rest => cases lower <;> rfl

theorem observe_outside {old : Frame Exn} (houtside : old.Outside)
    (hran : ∀ task, event ≠ some (.ran task))
    (hreturned : ∀ call result, event ≠ some (.returned call result)) :
    observe tree (old :: rest) event = (tree, none) := by
  unfold observe
  split
  next hran' => exact absurd rfl (hran _)
  next hframe =>
    cases hframe
    exact houtside.elim
  next hframe =>
    cases hframe
    exact houtside.elim
  next => exact absurd rfl (hreturned _ _)
  next => rfl

end Citor.ForkJoin
