import Citor.ForkJoin.SegmentSteps

/-!
# Entering, leaving and going on with a body

These steps move one task in the tree, which no other frame runs.
-/

namespace Citor.ForkJoin

open Citor.Interleaving Citor.Census

variable {Exn : Type}
variable {participants slot : ℕ} {root : List (Segment × List Segment)}
variable {events : List (Event Exn)}
variable {opened closed opened' closed' : List Segment}
variable {before after : State Exn} {tree tree' : Tree Exn}
variable {event : Option (Event Exn)} {task mover : Task}
variable {old new rest : List (Frame Exn)}

namespace Placed

variable (hplaced : Placed participants root events opened closed before tree)
variable (hinv : Inv participants events before)
variable (hgrown : Grown tree tree' mover)

include hplaced

theorem call_lt_of_ended (hinv : Inv participants events before)
    {result : Option Exn} (hended : .ended task result ∈ events) :
    task.call < tree.calls := by
  rw [hplaced.calls]
  exact hinv.places.call_lt (.inr (.inr (endedCount_pos hended)))

theorem call_lt_of_returned (hinv : Inv participants events before) {call : ℕ}
    {result : Option Exn} (hreturned : .returned call result ∈ events) :
    call < tree.calls := by
  rw [hplaced.calls]
  have hcount : 0 < returnedCount events call :=
    List.countP_pos_iff.2 ⟨_, hreturned, by simp⟩
  have howned := hinv.places.owned call
  split at howned
  · assumption
  · omega

/-- A call that is made has the same shape in the tree. -/
theorem makes_openCall (site : Path × ℕ) (inside : Bool) (token : Option ℕ)
    (count : ℕ) (child : ℕ → Prog Exn) (frames : List (Frame Exn))
    (call : ℕ) :
    (tree.makes site count child).count call =
        ((before.openCall slot inside token count child frames).calls
          call).count ∧
      (tree.makes site count child).child call =
        ((before.openCall slot inside token count child frames).calls
          call).child := by
  by_cases hnew : call = before.callCount
  · rw [hnew, openCall_self, ← hplaced.calls, Tree.makes_count,
      Tree.makes_child]
    exact ⟨rfl, rfl⟩
  · rw [openCall_other _ _ _ _ _ _ hnew, ← hplaced.count, ← hplaced.child]
    rw [← hplaced.calls] at hnew
    simp [Tree.makes, hnew]

include hinv hgrown

/-- What lies under the top of a stack, where nothing there runs the moving
task. -/
theorem under (hmover : mover.call < tree.calls) {top : Frame Exn}
    (hmem : ∀ frame ∈ top :: rest, frame ∈ before.frames slot)
    (hsound : Sound root opened closed tree (top :: rest))
    (hfree : ∀ frame ∈ rest, frame.runs mover = 0)
    (hopened : opened ⊆ opened') (hclosed : closed ⊆ closed') :
    Sound root opened' closed' tree' rest ∧
      ∀ lower ∈ rest.head?, Below root closed' tree' top lower := by
  have hcalls : ∀ frame ∈ top :: rest, frame.call < tree.calls :=
    fun frame hframe => hplaced.frame_call_lt hinv (hmem frame hframe)
  have hapart : ∀ task, task.call < tree.calls → task ≠ mover →
      tree.path mover ≠ tree.path task :=
    fun _ hother hne => hplaced.path_ne hmover hother hne.symm
  constructor
  · apply hsound.tail.grown hgrown _ hfree hapart hopened hclosed
    exact fun frame hframe => hcalls frame (List.mem_cons_of_mem _ hframe)
  · intro lower hlower
    have hlowerMem := List.mem_of_mem_head? hlower
    exact (hsound.chain.rel_head? hlower).grown hgrown
      (hcalls top List.mem_cons_self)
      (hcalls lower (List.mem_cons_of_mem _ hlowerMem))
      (hfree lower hlowerMem) hapart hclosed

theorem sounds (hmover : mover.call < tree.calls)
    {frames : List (Frame Exn)}
    (hframes : after.frames = Function.update before.frames slot frames)
    (halone : ∀ other < participants, other ≠ slot →
      ∀ frame ∈ before.frames other, frame.runs mover = 0)
    (hopened : opened ⊆ opened') (hclosed : closed ⊆ closed')
    (hsound : Sound root opened' closed' tree' frames) :
    ∀ other < participants,
      Sound root opened' closed' tree' (after.frames other) := by
  intro other hother
  rw [hframes]
  by_cases hsame : other = slot
  · simpa [hsame] using hsound
  · rw [Function.update_of_ne hsame]
    apply (hplaced.sound other hother).grown hgrown _
      (halone other hother hsame) _ hopened hclosed
    · exact fun frame hframe => hplaced.frame_call_lt hinv hframe
    · exact fun _ hcall hne => hplaced.path_ne hmover hcall hne.symm

/-- The invariant where the tree has grown at one task. -/
theorem moved (hmover : mover.call < tree.calls)
    (hran : 0 < ranCount (events ++ event.toList) mover)
    (hforward : 0 < ranCount events mover →
      tree.index mover ≤ tree'.index mover)
    (hcalls : tree'.calls = after.callCount)
    (hcount : ∀ call, tree'.count call = (after.calls call).count)
    (hchild : ∀ call, tree'.child call = (after.calls call).child)
    (hstopped : after.stopped = before.stopped)
    (hsound : ∀ other < participants,
      Sound root opened' closed' tree' (after.frames other))
    (hclosed : closed ⊆ closed')
    (hcalled : ∀ call < tree'.calls, tree.calls ≤ call →
      ∃ front, front ⊆ closed' ∧ orderedCall front (tree'.site call)
        (tree'.count call) (tree'.child call) ⊆ root)
    (hsites : ∀ call < tree'.calls, tree.calls ≤ call → ∀ other < tree'.calls,
      tree'.site call = tree'.site other → call = other)
    (honce : opened'.Nodup)
    (hknown : ∀ segment ∈ opened',
      segment ∈ opened ∨ segment = tree'.current mover)
    (hended : ∀ task, event = some (.ended task none) →
      (tree'.prog task).serial (tree'.path task) 0 ⊆ closed')
    (hfinished : ∀ call result, event = some (.returned call result) →
      serialCall (tree'.site call) (tree'.count call) (tree'.child call) ⊆
        closed') :
    Placed participants root (events ++ event.toList) opened' closed' after
      tree' where
  calls := hcalls
  count := hcount
  child := hchild
  quiet token := by
    rw [hstopped]
    exact hplaced.quiet token
  sound := hsound
  called call hcall := by
    by_cases hold : call < tree.calls
    · obtain ⟨front, hfront, hsub⟩ := hplaced.called call hold
      rw [hgrown.site call hold, hgrown.count call hold,
        hgrown.child call hold]
      exact ⟨front, List.Subset.trans hfront hclosed, hsub⟩
    · exact hcalled call hcall (not_lt.1 hold)
  sites call hcall other hother hsite := by
    by_cases hold : call < tree.calls
    · by_cases hotherOld : other < tree.calls
      · rw [hgrown.site call hold, hgrown.site other hotherOld] at hsite
        exact hplaced.sites call hold other hotherOld hsite
      · exact (hsites other hother (not_lt.1 hotherOld) call hcall
          hsite.symm).symm
    · exact hsites call hcall (not_lt.1 hold) other hother hsite
  made call hcall := by
    by_cases hold : call < tree.calls
    · rw [hgrown.site call hold]
      apply (hplaced.made call hold).imp_right
      rintro ⟨task, htask, hstarted, hpath⟩
      exact ⟨task, htask.trans_le hgrown.calls,
        hstarted.trans_le (ranCount_le_append task),
        hpath.trans (hgrown.path htask).symm⟩
    · right
      exact ⟨mover, hmover.trans_le hgrown.calls, hran,
        (hgrown.fresh call hcall (not_lt.1 hold)).trans
          (hgrown.path hmover).symm⟩
  once := honce
  known segment hmem := by
    obtain hmem | rfl := hknown segment hmem
    · obtain ⟨task, htask, hstarted, hpath, hindex⟩ :=
        hplaced.known segment hmem
      refine ⟨task, htask.trans_le hgrown.calls,
        hstarted.trans_le (ranCount_le_append task),
        hpath.trans (hgrown.path htask).symm, hindex.trans ?_⟩
      by_cases hsame : task = mover
      · rw [hsame]
        exact hforward (hsame ▸ hstarted)
      · rw [hgrown.index task hsame]
    · exact ⟨mover, hmover.trans_le hgrown.calls, hran, rfl, le_rfl⟩
  ended task hmem := by
    obtain hold | hnew := mem_append_event hmem
    · have htask := hplaced.call_lt_of_ended hinv hold
      rw [hgrown.prog htask, hgrown.path htask]
      exact List.Subset.trans (hplaced.ended task hold) hclosed
    · exact hended task hnew
  finished call result hmem := by
    obtain hold | hnew := mem_append_event hmem
    · have hcall := hplaced.call_lt_of_returned hinv hold
      rw [hgrown.site call hcall, hgrown.count call hcall,
        hgrown.child call hcall]
      exact List.Subset.trans (hplaced.finished call result hold) hclosed
    · exact hfinished call result hnew

end Placed

/-! ## Around a call -/

/-- Where the tasks of a call and the rest of the body stand. -/
theorem Inside.fork_placed {token : Option ℕ} {count : ℕ}
    {child : ℕ → Prog Exn} {next : Option Exn → Prog Exn}
    (hinside : Inside root opened closed tree task
      (.fork token count child next)) :
    ∃ front, front ⊆ closed ++ [tree.current task] ∧
      orderedCall front (tree.path task, tree.index task) count child ⊆ root ∧
      (next none).ordered (front ++
        serialCall (tree.path task, tree.index task) count child)
        (tree.path task) (tree.index task + 1) ⊆ root := by
  obtain ⟨front, hfront, hsub⟩ := hinside.placed
  rw [ordered_fork, List.cons_append, List.cons_subset,
    List.append_subset] at hsub
  refine ⟨front ++ [tree.current task], ?_, hsub.2.1, ?_⟩
  · exact List.append_subset.2
      ⟨List.Subset.trans hfront (List.subset_append_left _ _),
        List.subset_append_right _ _⟩
  · rw [List.append_assoc]
    exact hsub.2.2

/-- The call of a body, which waits for it. -/
theorem Inside.forked {token : Option ℕ} {count : ℕ} {child : ℕ → Prog Exn}
    {next : Option Exn → Prog Exn}
    (hinside : Inside root opened closed tree task
      (.fork token count child next)) (hcall : task.call < tree.calls) :
    Waiting root (closed ++ [tree.current task])
      (tree.makes (tree.path task, tree.index task) count child) task next
      tree.calls := by
  have hgrown := grown_makes tree task (tree.index task) count child
  have hpath := hgrown.path hcall
  constructor
  · intro other hlt hsite
    rw [hpath] at hsite
    obtain hold | rfl := tree.makes_cases _ _ _ hlt
    · rw [hgrown.site other hold] at hsite ⊢
      exact (hinside.bound other hold hsite).le
    · rw [Tree.makes_site]
      exact le_rfl
  · obtain ⟨front, hfront, -, hsub⟩ := hinside.fork_placed
    rw [hpath, Tree.makes_site, Tree.makes_count, Tree.makes_child]
    exact ⟨front, hfront, hsub⟩
  · intro segment hmem
    rw [hpath, hgrown.prog hcall] at hmem
    rw [hpath, Tree.makes_site, Tree.makes_count, Tree.makes_child,
      List.mem_append, List.mem_singleton]
    have hcover := hinside.cover segment hmem
    rw [serial_fork, List.mem_append, List.mem_cons] at hcover
    tauto

/-- A body goes on behind a call whose segments have ended. -/
theorem Waiting.resumed {call : ℕ} {next : Option Exn → Prog Exn}
    (hwaiting : Waiting root closed tree task next call)
    (hdone : serialCall (tree.site call) (tree.count call) (tree.child call) ⊆
      closed) :
    Inside root (opened ++ [⟨tree.path task, tree.index task + 1⟩]) closed
      (tree.goes task (tree.index task + 1)) task (next none) := by
  constructor
  · intro other hlt hsite
    rw [Tree.goes_index]
    exact Nat.lt_succ_of_le (hwaiting.bound other hlt hsite)
  · obtain ⟨front, hfront, hsub⟩ := hwaiting.placed
    rw [Tree.goes_index]
    exact ⟨_, List.append_subset.2 ⟨hfront, hdone⟩, hsub⟩
  · intro segment hmem
    rw [Tree.goes_index]
    obtain hclosed | hcall | hnext := hwaiting.cover segment hmem
    · exact .inl hclosed
    · exact .inl (hdone hcall)
    · exact .inr hnext
  · rw [Tree.current, Tree.goes_index]
    exact List.mem_append_right _ (List.mem_singleton_self _)

/-! ## One lemma for each effect -/

section Effects

variable (hplaced : Placed participants root events opened closed before tree)
include hplaced

/-- A body asks its token, which nobody stops. -/
theorem kept_polls (hslot : slot < participants) {via : Via} {token : ℕ}
    {next : Bool → Prog Exn}
    (hreplaces : Replaces before after slot [.body task via (.poll token next)]
      [.body task via (next (before.stopped token))] rest) :
    Kept participants root events opened closed after none (tree, none) := by
  have htop : before.frames slot = .body task via (.poll token next) :: rest :=
    hreplaces.top
  have hstack := hplaced.sound slot hslot
  rw [htop] at hstack
  have hinside : Inside root opened closed tree task (next false) := by
    obtain ⟨hbound, hplace, hcover, hcurrent⟩ :=
      hstack.inside task via (.poll token next) (by simp)
    exact ⟨hbound, hplace, hcover, hcurrent⟩
  apply Placed.kept
  apply hplaced.aside hreplaces.toKeeps (by simp) (by simp) hreplaces.frames
  intro _
  rw [hplaced.quiet token]
  exact hstack.tail.body hinside fun _ hlower =>
    below_hands ⟨rfl, id⟩ (hstack.chain.rel_head? hlower)

/-- The event of a step outside the bodies. -/
def Event.Minor (event : Option (Event Exn)) : Prop :=
  ∀ emitted ∈ event, (∃ task, emitted = .skipped task) ∨
    ∃ task via, emitted = .retired task via

/-- A frame that is neither a body nor waits for a call gives way to others. -/
theorem kept_outside {top : Frame Exn}
    (hreplaces : Replaces before after slot [top] new rest)
    (hold : top.Outside) (hminor : Event.Minor event)
    (hsound : Sound root opened closed tree (top :: rest) →
      Sound root opened closed tree (new ++ rest)) :
    Kept participants root events opened closed after event
      (observe tree (before.frames slot) event) := by
  rw [hreplaces.top, List.singleton_append,
    observe_outside hold (fun task h => by simpa using hminor _ h)
      (fun call result h => by simpa using hminor _ h)]
  apply Placed.kept
  apply hplaced.aside hreplaces.toKeeps
    (fun task result h => by simpa using hminor _ h)
    (fun call result h => by simpa using hminor _ h) hreplaces.frames
  intro hslot
  have hstack := hplaced.sound slot hslot
  rw [hreplaces.top] at hstack
  exact hsound hstack

variable (hinv : Inv participants events before)

include hinv

/-- A task goes on with its next segment. -/
theorem placed_goes {index : ℕ} (hmover : mover.call < tree.calls)
    (hran : 0 < ranCount (events ++ event.toList) mover)
    (hforward : 0 < ranCount events mover → tree.index mover < index)
    (hkeeps : Keeps before after)
    (hsound : ∀ other < participants,
      Sound root (opened ++ [⟨tree.path mover, index⟩]) closed
        (tree.goes mover index) (after.frames other))
    (hended : ∀ task result, event ≠ some (.ended task result))
    (hfinished : ∀ call result, event = some (.returned call result) →
      serialCall (tree.site call) (tree.count call) (tree.child call) ⊆
        closed) :
    Placed participants root (events ++ event.toList)
      (opened ++ [⟨tree.path mover, index⟩]) closed after
      (tree.goes mover index) := by
  apply hplaced.moved hinv (grown_goes tree mover index) hmover hran
  · intro hstarted
    rw [Tree.goes_index]
    exact (hforward hstarted).le
  · exact hplaced.calls.trans hkeeps.callCount.symm
  · exact fun call => (hplaced.count call).trans (hkeeps.calls call).count.symm
  · exact fun call => (hplaced.child call).trans (hkeeps.calls call).child.symm
  · exact hkeeps.stopped
  · exact hsound
  · exact List.Subset.refl _
  · exact fun call hcall hle => absurd hcall (not_lt.2 hle)
  · exact fun call hcall hle => absurd hcall (not_lt.2 hle)
  · rw [List.nodup_append]
    refine ⟨hplaced.once, List.nodup_singleton _, ?_⟩
    rintro segment hmem _ hnew rfl
    obtain rfl := List.mem_singleton.1 hnew
    obtain ⟨task, htask, hstarted, hpath, hle⟩ := hplaced.known _ hmem
    obtain rfl : mover = task := by
      by_contra hne
      exact hplaced.path_ne hmover htask hne hpath
    exact absurd (hforward hstarted) (not_lt.2 hle)
  · intro segment hmem
    rw [List.mem_append, List.mem_singleton] at hmem
    apply hmem.imp_right
    rintro rfl
    rw [Tree.current, Tree.goes_index]
    rfl
  · exact fun task hevent => absurd hevent (hended task none)
  · exact hfinished

variable (hslot : slot < participants) {via : Via}

include hslot

/-- A body is entered. -/
theorem kept_ran
    (hreplaces : Replaces before after slot [.poll task via]
      [.body task via ((before.calls task.call).child task.index)] rest) :
    Kept participants root events opened closed after (some (.ran task))
      (tree.goes task 0, some (.opens ⟨tree.path task, 0⟩)) := by
  have htop : before.frames slot = .poll task via :: rest := hreplaces.top
  have hmem : .poll task via ∈ before.frames slot := by simp [htop]
  have hcall : task.call < tree.calls := hplaced.frame_call_lt hinv hmem
  obtain ⟨hran, hindex⟩ := hinv.unran hslot hmem
    (show Frame.holdsBack task _ = 1 by simp [isTask])
  have hgrown := grown_goes tree task 0
  have hopened : opened ⊆ opened ++ [⟨tree.path task, 0⟩] :=
    List.subset_append_left _ _
  obtain ⟨hrest, hbelow⟩ := hplaced.under hinv hgrown hcall
    (fun _ hframe => htop ▸ hframe) (htop ▸ hplaced.sound slot hslot)
    (fun _ hframe => hinv.idle hran hslot
      (htop ▸ List.mem_cons_of_mem _ hframe)) hopened
    (List.Subset.refl closed)
  have hinside : Inside root (opened ++ [⟨tree.path task, 0⟩]) closed
      (tree.goes task 0) task (tree.prog task) :=
    { bound := fun call hlt hpath =>
        absurd (hplaced.ran_of_site hcall hlt hpath) (by omega)
      placed := by
        obtain ⟨front, hfront, hsub⟩ := hplaced.called task.call hcall
        rw [Tree.goes_index]
        exact ⟨front, hfront, List.Subset.trans (ordered_subset_orderedCall
          (hplaced.count task.call ▸ hindex)) hsub⟩
      cover := fun segment hsegment => by
        rw [Tree.goes_index]
        exact .inr hsegment
      current := by
        rw [Tree.current, Tree.goes_index]
        exact List.mem_append_right _ (List.mem_singleton_self _) }
  have hprog : (before.calls task.call).child task.index = tree.prog task :=
    congrFun (hplaced.child task.call).symm task.index
  have hstart : 0 < ranCount
      (events ++ (some (.ran task) : Option (Event Exn)).toList) task := by
    rw [ranCount_append, Option.toList_some, ranCount_singleton]
    simp
  rw [hprog] at hreplaces
  have hafter := placed_goes hplaced hinv hcall hstart
    (fun hearly => absurd hearly (by omega)) hreplaces.toKeeps
    (hplaced.sounds hinv hgrown hcall hreplaces.frames
      (fun _ hother _ _ hframe => hinv.idle hran hother hframe) hopened
      (List.Subset.refl _)
      (hrest.body hinside fun lower hlower =>
        below_hands ⟨rfl, id⟩ (hbelow lower hlower)))
    (by simp) (by simp)
  constructor
  · simpa [Mark.opened, Mark.closed] using hafter
  · rintro segment hopens
    obtain rfl : ⟨tree.path task, 0⟩ = segment := by simpa using hopens
    have hentry := hinside.entry
    rw [Tree.current, Tree.goes_index] at hentry
    exact hentry
  · simp

/-- A body comes to its end. -/
theorem kept_ended {new : Frame Exn}
    (hreplaces : Replaces before after slot [.body task via (.done none)] [new]
      rest) (houtside : new.Outside)
    (hhands : Hands (.body task via (.done none)) new) :
    Kept participants root events opened closed after (some (.ended task none))
      (tree, some (.closes (tree.current task))) := by
  have htop : before.frames slot = .body task via (.done none) :: rest :=
    hreplaces.top
  have hmem : .body task via (.done none) ∈ before.frames slot := by simp [htop]
  have hcall : task.call < tree.calls := hplaced.frame_call_lt hinv hmem
  have hran : 0 < ranCount events task :=
    hinv.ran_of_runs hslot hmem (by simp [isTask])
  obtain ⟨hfree, halone⟩ := hinv.runs_alone hslot hreplaces.top
    (show weigh (Frame.runs task) _ = 1 by simp [isTask])
  have hgrown := Grown.refl tree task
  have hclosed : closed ⊆ closed ++ [tree.current task] :=
    List.subset_append_left _ _
  have hstack := hplaced.sound slot hslot
  rw [htop] at hstack
  have hinside := hstack.inside task via (.done none) (by simp)
  obtain ⟨hrest, hbelow⟩ := hplaced.under hinv hgrown hcall
    (fun _ hframe => htop ▸ hframe) hstack hfree
    (List.Subset.refl opened) hclosed
  have hafter : Placed participants root
      (events ++ (some (.ended task none) : Option (Event Exn)).toList) opened
      (closed ++ [tree.current task]) after tree := by
    apply hplaced.moved hinv hgrown hcall
    · exact hran.trans_le (ranCount_le_append task)
    · exact fun _ => le_rfl
    · exact hplaced.calls.trans hreplaces.callCount.symm
    · exact fun call =>
        (hplaced.count call).trans (hreplaces.calls call).count.symm
    · exact fun call =>
        (hplaced.child call).trans (hreplaces.calls call).child.symm
    · exact hreplaces.stopped
    · apply hplaced.sounds hinv hgrown hcall hreplaces.frames halone
        (List.Subset.refl opened) hclosed
      exact hrest.cons houtside.ne_body fun lower hlower =>
        below_hands hhands (hbelow lower hlower)
    · exact hclosed
    · exact fun call hlt hle => absurd hlt (not_lt.2 hle)
    · exact fun call hlt hle => absurd hlt (not_lt.2 hle)
    · exact hplaced.once
    · exact fun _ hsegment => .inl hsegment
    · rintro other hevent segment hsegment
      obtain rfl : task = other := by simpa using hevent
      rw [List.mem_append]
      exact hinside.cover segment hsegment
    · simp
  constructor
  · simpa [Mark.opened, Mark.closed] using hafter
  · simp
  · rintro segment hcloses
    obtain rfl : tree.current task = segment := by simpa using hcloses
    exact hinside.current

/-- A body makes a call. -/
theorem kept_forks {token : Option ℕ} {count : ℕ} {child : ℕ → Prog Exn}
    {next : Option Exn → Prog Exn} {inside : Bool}
    (htop : before.frames slot =
      .body task via (.fork token count child next) :: rest)
    (hafter : after = before.openCall slot inside token count child
      (.wait task via next :: rest)) :
    Kept participants root events opened closed after none
      (tree.makes (tree.path task, tree.index task) count child,
        some (.closes (tree.current task))) := by
  have hmem : .body task via (.fork token count child next) ∈
      before.frames slot := by simp [htop]
  have hcall : task.call < tree.calls := hplaced.frame_call_lt hinv hmem
  have hran : 0 < ranCount events task :=
    hinv.ran_of_runs hslot hmem (by simp [isTask])
  obtain ⟨hfree, halone⟩ := hinv.runs_alone hslot
    (show before.frames slot =
      [.body task via (.fork token count child next)] ++ rest from htop)
    (show weigh (Frame.runs task) _ = 1 by simp [isTask])
  have hgrown := grown_makes tree task (tree.index task) count child
  have hclosed : closed ⊆ closed ++ [tree.current task] :=
    List.subset_append_left _ _
  have hstack := hplaced.sound slot hslot
  rw [htop] at hstack
  have hinside := hstack.inside task via _ List.mem_cons_self
  obtain ⟨hrest, hbelow⟩ := hplaced.under hinv hgrown hcall
    (fun _ hframe => htop ▸ hframe) hstack hfree
    (List.Subset.refl opened) hclosed
  have hnew : Sound root opened (closed ++ [tree.current task])
      (tree.makes (tree.path task, tree.index task) count child)
      (entryFrame before.callCount count :: .wait task via next :: rest) := by
    apply Sound.cons _ (entryFrame_outside _ _).ne_body
    · intro lower hlower
      obtain rfl : .wait task via next = lower := by simpa using hlower
      rintro _ _ _ ⟨rfl⟩
      rw [entryFrame_call, entryFrame_owns, ← hplaced.calls]
      exact ⟨by simp, hinside.forked hcall⟩
    · apply hrest.cons (by simp)
      exact fun lower hlower => below_hands ⟨rfl, id⟩ (hbelow lower hlower)
  have hplaced' : Placed participants root
      (events ++ (none : Option (Event Exn)).toList) opened
      (closed ++ [tree.current task]) after
      (tree.makes (tree.path task, tree.index task) count child) := by
    apply hplaced.moved hinv hgrown hcall
    · exact hran.trans_le (ranCount_le_append task)
    · exact fun _ => le_rfl
    · rw [hafter]
      exact congrArg (· + 1) hplaced.calls
    · intro call
      rw [hafter]
      exact (hplaced.makes_openCall _ _ _ _ _ _ call).1
    · intro call
      rw [hafter]
      exact (hplaced.makes_openCall _ _ _ _ _ _ call).2
    · rw [hafter]
      rfl
    · exact hplaced.sounds hinv hgrown hcall (by rw [hafter]; rfl) halone
        (List.Subset.refl opened) hclosed hnew
    · exact hclosed
    · intro call hlt hle
      obtain hold | rfl := tree.makes_cases _ _ _ hlt
      · exact absurd hold (not_lt.2 hle)
      · obtain ⟨front, hfront, hsub, -⟩ := hinside.fork_placed
        rw [Tree.makes_site, Tree.makes_count, Tree.makes_child]
        exact ⟨front, hfront, hsub⟩
    · intro call hlt hle other hother hsite
      obtain hold | rfl := tree.makes_cases _ _ _ hlt
      · exact absurd hold (not_lt.2 hle)
      · obtain hearly | rfl := tree.makes_cases _ _ _ hother
        · rw [Tree.makes_site, hgrown.site other hearly] at hsite
          have hbound := hinside.bound other hearly (by rw [← hsite])
          rw [← hsite] at hbound
          exact absurd hbound (lt_irrefl _)
        · rfl
    · exact hplaced.once
    · exact fun _ hsegment => .inl hsegment
    · simp
    · simp
  constructor
  · simpa [Mark.opened, Mark.closed] using hplaced'
  · simp
  · rintro segment hcloses
    obtain rfl : tree.current task = segment := by simpa using hcloses
    exact hinside.current

/-- A body goes on behind its call. -/
theorem kept_resumes {call : ℕ} {result : Option Exn} {top : Frame Exn}
    {next : Option Exn → Prog Exn}
    (hframe : top = .rethrow call ∨ top = .ret call result)
    (hreplaces : Replaces before after slot [top, .wait task via next]
      [.body task via (next none)] rest)
    (hdone : serialCall (tree.site call) (tree.count call) (tree.child call) ⊆
      closed) :
    Kept participants root events opened closed after
      (some (.returned call result))
      (tree.goes task (tree.index task + 1),
        some (.opens ⟨tree.path task, tree.index task + 1⟩)) := by
  have htop : before.frames slot = top :: .wait task via next :: rest :=
    hreplaces.top
  have hmem : .wait task via next ∈ before.frames slot := by simp [htop]
  have hcall : task.call < tree.calls := hplaced.frame_call_lt hinv hmem
  have hran : 0 < ranCount events task :=
    hinv.ran_of_runs hslot hmem (by simp [isTask])
  obtain ⟨hfree, halone⟩ := hinv.runs_alone hslot hreplaces.top
    (show weigh (Frame.runs task) _ = 1 by
      obtain rfl | rfl := hframe <;> simp [isTask])
  have hgrown := grown_goes tree task (tree.index task + 1)
  have hopened : opened ⊆ opened ++ [⟨tree.path task, tree.index task + 1⟩] :=
    List.subset_append_left _ _
  have hstack := hplaced.sound slot hslot
  rw [htop] at hstack
  have hwaiting : Waiting root closed tree task next call := by
    have hbelow := (List.isChain_cons_cons.1 hstack.chain).1
    obtain rfl | rfl := hframe <;> exact (hbelow task via next rfl).2
  have hinside : Inside root
      (opened ++ [⟨tree.path task, tree.index task + 1⟩]) closed
      (tree.goes task (tree.index task + 1)) task (next none) :=
    hwaiting.resumed hdone
  obtain ⟨hrest, hbelow⟩ := hplaced.under hinv hgrown hcall
    (fun _ hframe => htop ▸ List.mem_cons_of_mem _ hframe) hstack.tail hfree
    hopened (List.Subset.refl closed)
  have hafter := placed_goes hplaced hinv hcall
    (hran.trans_le (ranCount_le_append task)) (fun _ => Nat.lt_succ_self _)
    hreplaces.toKeeps
    (hplaced.sounds hinv hgrown hcall hreplaces.frames halone hopened
      (List.Subset.refl closed)
      (hrest.body hinside fun lower hlower =>
        below_hands ⟨rfl, id⟩ (hbelow lower hlower)))
    (show ∀ other outcome, (some (.returned call result) :
      Option (Event Exn)) ≠ some (.ended other outcome) by simp)
    (by simpa using hdone)
  constructor
  · simpa [Mark.opened, Mark.closed] using hafter
  · rintro segment hopens
    obtain rfl : ⟨tree.path task, tree.index task + 1⟩ = segment := by
      simpa using hopens
    have hentry := hinside.entry
    rw [Tree.current, Tree.goes_index] at hentry
    exact hentry
  · simp

end Effects

/-! ## All effects -/

/-- A call that returns has closed its segments, unless something threw. -/
theorem Placed.closed_of_joined
    (hplaced : Placed participants root events opened closed before tree)
    {call : ℕ} {result : Option Exn}
    (hjoined : Joined events before call result)
    (hcalm : ∀ task thrown, .ended task (some thrown) ∉ events) :
    result = none ∧
      serialCall (tree.site call) (tree.count call) (tree.child call) ⊆
        closed := by
  have hquiet : ¬ Threw events call := by
    rintro ⟨thrown, index, hthrew⟩
    exact hcalm _ _ hthrew
  constructor
  · have hsome := mt hjoined.rethrown.1 hquiet
    simpa using hsome
  · intro segment hmem
    obtain ⟨index, hindex, hchild⟩ := List.mem_flatMap.1 hmem
    rw [List.mem_range, hplaced.count call] at hindex
    have hstopped : before.stopRequested call = false := by
      unfold State.stopRequested
      split
      · rfl
      · exact hplaced.quiet _
    have hran := hjoined.ran hquiet hstopped index hindex
    have hended := hjoined.ended index hindex
    have hcount : 0 < endedCount events ⟨call, index⟩ := by omega
    obtain ⟨event, hevent, hends⟩ := List.countP_pos_iff.1 hcount
    cases event with
    | ended task outcome =>
        obtain rfl : task = ⟨call, index⟩ := by simpa using hends
        cases outcome with
        | some thrown => exact absurd hevent (hcalm _ _)
        | none => exact hplaced.ended _ hevent hchild
    | ran | skipped | retired | returned => simp at hends

/-- Every step of a slot keeps the tasks in their places. -/
theorem kept_of_effect
    (hplaced : Placed participants root events opened closed before tree)
    (hinv : Inv participants events before) (hslot : slot < participants)
    (heffect : Effect before after slot event)
    (hcalm : ∀ task thrown,
      .ended task (some thrown) ∉ events ++ event.toList)
    (hjoined : ∀ call result, event = some (.returned call result) →
      Joined events before call result) :
    Kept participants root events opened closed after event
      (observe tree (before.frames slot) event) := by
  cases heffect with
  | enters call hreplaces =>
      have hempty : before.frames slot = [] := hreplaces.top
      rw [hempty]
      apply Placed.kept
      apply hplaced.aside hreplaces.toKeeps (by simp) (by simp) hreplaces.frames
      intro _
      have hnone : Sound root opened closed tree ([] : List (Frame Exn)) :=
        hempty ▸ hplaced.sound slot hslot
      exact hnone.cons (by simp) (by simp)
  | takes first second task via rest hreplaces houtside hnew hhands =>
      apply kept_outside hplaced hreplaces houtside (by simp [Event.Minor])
      intro hstack
      apply (hstack.shift hnew hhands).cons (by simp)
      intro lower hlower
      obtain rfl : second = lower := by simpa using hlower
      exact below_outside hnew
  | shifts first second rest event hreplaces houtside hnew hhands hemits =>
      apply kept_outside hplaced hreplaces houtside hemits
      exact fun hstack => hstack.shift hnew hhands
  | drops first rest event hreplaces houtside howns hemits =>
      apply kept_outside hplaced hreplaces houtside
        fun emitted hevent => .inr (hemits emitted hevent)
      exact fun hstack => hstack.tail
  | ran task via rest hreplaces =>
      rw [hreplaces.top]
      exact kept_ran hplaced hinv hslot hreplaces
  | polls task via token next rest hreplaces =>
      rw [hreplaces.top, List.singleton_append, observe_polls]
      exact kept_polls hplaced hslot hreplaces
  | ended task via result frame rest hreplaces houtside hhands =>
      cases result with
      | some thrown => exact absurd (by simp) (hcalm task thrown)
      | none =>
          rw [hreplaces.top]
          exact kept_ended hplaced hinv hslot hreplaces houtside hhands
  | forks task via token count child next rest htop hafter =>
      rw [htop]
      exact kept_forks hplaced hinv hslot htop hafter
  | resumes call top task via next result rest hframe hreplaces =>
      obtain ⟨rfl, hdone⟩ :=
        hplaced.closed_of_joined (hjoined call result rfl) fun task thrown h =>
          hcalm task thrown (List.mem_append_left _ h)
      rw [hreplaces.top]
      have hkept := kept_resumes hplaced hinv hslot hframe hreplaces hdone
      obtain rfl | rfl := hframe <;> exact hkept
  | leaves call top result hframe hreplaces =>
      obtain ⟨rfl, hdone⟩ :=
        hplaced.closed_of_joined (hjoined call result rfl) fun task thrown h =>
          hcalm task thrown (List.mem_append_left _ h)
      have hnone : observe tree (before.frames slot)
          (some (.returned call none)) = (tree, none) := by
        rw [hreplaces.top]
        obtain rfl | rfl := hframe <;> rfl
      rw [hnone]
      apply Placed.kept
      apply hplaced.aside hreplaces.toKeeps (by simp) (by simpa using hdone)
        hreplaces.frames
      exact fun _ => ⟨by simp, .nil⟩

end Citor.ForkJoin
