import Citor.Core.SharedMemory
import Citor.ForkJoin.Segments
import Citor.ForkJoin.StepEffects

/-!
# The segments of a run

One thread makes a fork-join call and nobody stops it.  Next to the pool's
state stands the tree of the calls made so far, which no step reads: it names
every task by its place in the program and counts the calls of its body.  A
step opens a segment where it enters a body or goes on behind a call, and
closes one where a body makes a call or ends.
-/

namespace Citor.ForkJoin

open Citor.Interleaving Citor.Census
open SharedMemory (Brackets)

variable {Exn : Type}

/-! ## The tree of calls -/

structure Tree (Exn : Type) where
  calls : ℕ
  /-- Whose body made the call, and how many calls it had made before. -/
  site : ℕ → Path × ℕ
  count : ℕ → ℕ
  child : ℕ → ℕ → Prog Exn
  /-- The segment that a task is in. -/
  index : Task → ℕ

def Tree.path (tree : Tree Exn) (task : Task) : Path :=
  (tree.site task.call).1 ++ [((tree.site task.call).2, task.index)]

def Tree.current (tree : Tree Exn) (task : Task) : Segment :=
  ⟨tree.path task, tree.index task⟩

def Tree.prog (tree : Tree Exn) (task : Task) : Prog Exn :=
  tree.child task.call task.index

def Tree.makes (tree : Tree Exn) (site : Path × ℕ) (count : ℕ)
    (child : ℕ → Prog Exn) : Tree Exn where
  calls := tree.calls + 1
  site := Function.update tree.site tree.calls site
  count := Function.update tree.count tree.calls count
  child := Function.update tree.child tree.calls child
  index := tree.index

section Fresh

variable (tree : Tree Exn) (site : Path × ℕ) (count : ℕ) (child : ℕ → Prog Exn)

@[simp]
theorem Tree.makes_site :
    (tree.makes site count child).site tree.calls = site := by
  simp [Tree.makes]

@[simp]
theorem Tree.makes_count :
    (tree.makes site count child).count tree.calls = count := by
  simp [Tree.makes]

@[simp]
theorem Tree.makes_child :
    (tree.makes site count child).child tree.calls = child := by
  simp [Tree.makes]

/-- The calls behind one more. -/
theorem Tree.makes_cases {call : ℕ}
    (hcall : call < (tree.makes site count child).calls) :
    call < tree.calls ∨ call = tree.calls :=
  Nat.lt_succ_iff_lt_or_eq.1 hcall

end Fresh

def Tree.goes (tree : Tree Exn) (task : Task) (index : ℕ) : Tree Exn :=
  { tree with index := Function.update tree.index task index }

@[simp]
theorem Tree.goes_index (tree : Tree Exn) (task : Task) (index : ℕ) :
    (tree.goes task index).index task = index := by
  simp [Tree.goes]

inductive Mark
  | opens (segment : Segment)
  | closes (segment : Segment)
  deriving DecidableEq, Repr

/-- What the step of a slot with these frames does to the tree. -/
def observe (tree : Tree Exn) (frames : List (Frame Exn))
    (event : Option (Event Exn)) : Tree Exn × Option Mark :=
  match frames, event with
  | .poll task _ :: _, some (.ran _) =>
      (tree.goes task 0, some (.opens ⟨tree.path task, 0⟩))
  | .body task _ (.done _) :: _, _ =>
      (tree, some (.closes (tree.current task)))
  | .body task _ (.fork _ count child _) :: _, _ =>
      (tree.makes (tree.path task, tree.index task) count child,
        some (.closes (tree.current task)))
  | _ :: .wait task _ _ :: _, some (.returned _ _) =>
      (tree.goes task (tree.index task + 1),
        some (.opens ⟨tree.path task, tree.index task + 1⟩))
  | _, _ => (tree, none)

structure Observed (Exn : Type) where
  state : State Exn
  tree : Tree Exn

inductive Move
  /-- The thread outside makes its call. -/
  | call
  | advance (slot : ℕ)
  | steal (slot victim : ℕ) (hit : Bool)
  | wake (slot : ℕ)
  deriving DecidableEq, Repr

abbrev Observation (Exn : Type) := Option (Event Exn) × Option Mark

def Observed.record (observed : Observed Exn) (slot : ℕ) :
    State Exn × Option (Event Exn) → Observed Exn × Option (Observation Exn)
  | (after, event) =>
      let (tree, mark) :=
        observe observed.tree (observed.state.frames slot) event
      (⟨after, tree⟩, some (event, mark))

/-- The fork-join machine with one call from outside. -/
def oneCall (participants : ℕ) (token : Option ℕ) (count : ℕ)
    (child : ℕ → Prog Exn) : Machine (Observed Exn) Move (Observation Exn) where
  step observed
    | .call =>
        if observed.state.callCount = 0 then
          (step participants observed.state (.start token count child)).map
            fun (after, event) =>
              (⟨after, observed.tree.makes ([], 0) count child⟩,
                some (event, none))
        else none
    | .advance slot =>
        (step participants observed.state (.advance slot)).map
          (observed.record slot)
    | .steal slot victim hit =>
        (step participants observed.state (.steal slot victim hit)).map
          (observed.record slot)
    | .wake slot =>
        (step participants observed.state (.wake slot)).map
          (observed.record slot)

/-- Nothing called yet, no token stopped. -/
def begun (Exn : Type) : Observed Exn where
  state := start Exn fun _ => false
  tree :=
    { calls := 0
      site := fun _ => ([], 0)
      count := fun _ => 0
      child := fun _ _ => .done none
      index := fun _ => 0 }

def Mark.opened : Mark → Option Segment
  | .opens segment => some segment
  | .closes _ => none

def Mark.closed : Mark → Option Segment
  | .opens _ => none
  | .closes segment => some segment

def segments : Brackets (Observation Exn) Segment where
  opens observation := observation.2.bind Mark.opened
  closes observation := observation.2.bind Mark.closed

/-- What the pool itself emits. -/
def eventsOf (trace : List (Observation Exn)) : List (Event Exn) :=
  trace.filterMap Prod.fst

/-! ## Where the tasks stand in the program -/

section Places

variable (root : List (Segment × List Segment))
variable (opened closed : List Segment) (tree : Tree Exn)

/-- A body that has `prog` still to run. -/
structure Inside (task : Task) (prog : Prog Exn) : Prop where
  bound : ∀ call < tree.calls, (tree.site call).1 = tree.path task →
    (tree.site call).2 < tree.index task
  placed : ∃ front, front ⊆ closed ∧
    prog.ordered front (tree.path task) (tree.index task) ⊆ root
  cover : ∀ segment ∈ (tree.prog task).serial (tree.path task) 0,
    segment ∈ closed ∨
      segment ∈ prog.serial (tree.path task) (tree.index task)
  current : tree.current task ∈ opened

/-- A body that goes on with `next` behind `call`. -/
structure Waiting (task : Task) (next : Option Exn → Prog Exn) (call : ℕ) :
    Prop where
  bound : ∀ other < tree.calls, (tree.site other).1 = tree.path task →
    (tree.site other).2 ≤ tree.index task
  placed : ∃ front, front ⊆ closed ∧
    (next none).ordered
      (front ++ serialCall (tree.site call) (tree.count call)
        (tree.child call))
      (tree.path task) (tree.index task + 1) ⊆ root
  cover : ∀ segment ∈ (tree.prog task).serial (tree.path task) 0,
    segment ∈ closed ∨
      segment ∈ serialCall (tree.site call) (tree.count call)
        (tree.child call) ∨
      segment ∈ (next none).serial (tree.path task) (tree.index task + 1)

/-- What waits for a call lies under the frame of that call. -/
def Below (upper lower : Frame Exn) : Prop :=
  ∀ task via next, lower = .wait task via next →
    upper.owns upper.call = 1 ∧ Waiting root closed tree task next upper.call

/-- The stack of one slot. -/
structure Sound (frames : List (Frame Exn)) : Prop where
  inside : ∀ task via prog, .body task via prog ∈ frames →
    Inside root opened closed tree task prog
  chain : frames.IsChain (Below root closed tree)

end Places

/-- The invariant of the tree. -/
structure Placed (participants : ℕ) (root : List (Segment × List Segment))
    (events : List (Event Exn)) (opened closed : List Segment)
    (state : State Exn) (tree : Tree Exn) : Prop where
  calls : tree.calls = state.callCount
  count : ∀ call, tree.count call = (state.calls call).count
  child : ∀ call, tree.child call = (state.calls call).child
  quiet : ∀ token, state.stopped token = false
  sound : ∀ slot < participants,
    Sound root opened closed tree (state.frames slot)
  called : ∀ call < tree.calls, ∃ front, front ⊆ closed ∧
    orderedCall front (tree.site call) (tree.count call)
      (tree.child call) ⊆ root
  sites : ∀ call < tree.calls, ∀ other < tree.calls,
    tree.site call = tree.site other → call = other
  made : ∀ call < tree.calls, (tree.site call).1 = [] ∨
    ∃ task, task.call < tree.calls ∧ 0 < ranCount events task ∧
      (tree.site call).1 = tree.path task
  once : opened.Nodup
  known : ∀ segment ∈ opened, ∃ task, task.call < tree.calls ∧
    0 < ranCount events task ∧ segment.path = tree.path task ∧
      segment.index ≤ tree.index task
  ended : ∀ task, .ended task none ∈ events →
    (tree.prog task).serial (tree.path task) 0 ⊆ closed
  finished : ∀ call result, .returned call result ∈ events →
    serialCall (tree.site call) (tree.count call) (tree.child call) ⊆ closed

/-- What has to end in front of a body's segment has ended. -/
theorem Inside.entry {root : List (Segment × List Segment)}
    {opened closed : List Segment} {tree : Tree Exn} {task : Task}
    {prog : Prog Exn} (hinside : Inside root opened closed tree task prog) :
    ∃ front, front ⊆ closed ∧ (tree.current task, front) ∈ root := by
  obtain ⟨front, hfront, hplaced⟩ := hinside.placed
  obtain ⟨later, hordered⟩ :=
    ordered_eq_cons prog front (tree.path task) (tree.index task)
  rw [hordered] at hplaced
  exact ⟨front, hfront, hplaced (by simp [Tree.current])⟩

/-! ## What a step leaves alone -/

/-- The tree grows at one task. -/
structure Grown (before after : Tree Exn) (mover : Task) : Prop where
  calls : before.calls ≤ after.calls
  site : ∀ call < before.calls, after.site call = before.site call
  count : ∀ call < before.calls, after.count call = before.count call
  child : ∀ call < before.calls, after.child call = before.child call
  index : ∀ task, task ≠ mover → after.index task = before.index task
  fresh : ∀ call < after.calls, before.calls ≤ call →
    (after.site call).1 = before.path mover

section Growth

variable {root : List (Segment × List Segment)}
variable {opened closed opened' closed' : List Segment}
variable {before after : Tree Exn} {mover task : Task}

theorem Grown.refl (tree : Tree Exn) (mover : Task) : Grown tree tree mover :=
  ⟨le_rfl, fun _ _ => rfl, fun _ _ => rfl, fun _ _ => rfl, fun _ _ => rfl,
    fun _ hcall hle => absurd hcall (not_lt.2 hle)⟩

theorem grown_makes (tree : Tree Exn) (mover : Task) (index count : ℕ)
    (child : ℕ → Prog Exn) :
    Grown tree (tree.makes (tree.path mover, index) count child) mover where
  calls := Nat.le_succ _
  site call hcall := by simp [Tree.makes, hcall.ne]
  count call hcall := by simp [Tree.makes, hcall.ne]
  child call hcall := by simp [Tree.makes, hcall.ne]
  index _ _ := rfl
  fresh call hcall hle := by
    obtain hold | rfl := tree.makes_cases _ _ _ hcall
    · exact absurd hold (not_lt.2 hle)
    · rw [Tree.makes_site]

theorem grown_goes (tree : Tree Exn) (mover : Task) (index : ℕ) :
    Grown tree (tree.goes mover index) mover :=
  ⟨le_rfl, fun _ _ => rfl, fun _ _ => rfl, fun _ _ => rfl,
    fun task hne => by simp [Tree.goes, hne],
    fun _ hcall hle => absurd hcall (not_lt.2 hle)⟩

theorem Grown.path (hgrown : Grown before after mover)
    (hcall : task.call < before.calls) :
    after.path task = before.path task := by
  rw [Tree.path, Tree.path, hgrown.site _ hcall]

theorem Grown.prog (hgrown : Grown before after mover)
    (hcall : task.call < before.calls) :
    after.prog task = before.prog task := by
  rw [Tree.prog, Tree.prog, hgrown.child _ hcall]

/-- The calls of a task that does not move. -/
theorem Grown.bound (hgrown : Grown before after mover)
    (hcall : task.call < before.calls)
    (hapart : before.path mover ≠ before.path task) {call : ℕ}
    (hafter : call < after.calls)
    (hpath : (after.site call).1 = after.path task) :
    call < before.calls ∧ (before.site call).1 = before.path task ∧
      after.site call = before.site call := by
  rw [hgrown.path hcall] at hpath
  by_cases hold : call < before.calls
  · rw [hgrown.site call hold] at hpath
    exact ⟨hold, hpath, hgrown.site call hold⟩
  · rw [hgrown.fresh call hafter (not_lt.1 hold)] at hpath
    exact absurd hpath hapart

theorem Inside.grown {prog : Prog Exn}
    (hinside : Inside root opened closed before task prog)
    (hgrown : Grown before after mover) (hcall : task.call < before.calls)
    (hne : task ≠ mover) (hapart : before.path mover ≠ before.path task)
    (hopened : opened ⊆ opened') (hclosed : closed ⊆ closed') :
    Inside root opened' closed' after task prog where
  bound call hlt hpath := by
    obtain ⟨hold, hpath, hsite⟩ := hgrown.bound hcall hapart hlt hpath
    rw [hsite, hgrown.index task hne]
    exact hinside.bound call hold hpath
  placed := by
    obtain ⟨front, hfront, hplaced⟩ := hinside.placed
    rw [hgrown.path hcall, hgrown.index task hne]
    exact ⟨front, List.Subset.trans hfront hclosed, hplaced⟩
  cover segment hmem := by
    rw [hgrown.path hcall, hgrown.prog hcall] at hmem
    rw [hgrown.path hcall, hgrown.index task hne]
    exact (hinside.cover segment hmem).imp_left fun hin => hclosed hin
  current := by
    rw [Tree.current, hgrown.path hcall, hgrown.index task hne]
    exact hopened hinside.current

theorem Waiting.grown {next : Option Exn → Prog Exn} {call : ℕ}
    (hwaiting : Waiting root closed before task next call)
    (hgrown : Grown before after mover) (hcall : task.call < before.calls)
    (hmade : call < before.calls)
    (hne : task ≠ mover) (hapart : before.path mover ≠ before.path task)
    (hclosed : closed ⊆ closed') :
    Waiting root closed' after task next call where
  bound other hlt hpath := by
    obtain ⟨hold, hpath, hsite⟩ := hgrown.bound hcall hapart hlt hpath
    rw [hsite, hgrown.index task hne]
    exact hwaiting.bound other hold hpath
  placed := by
    obtain ⟨front, hfront, hplaced⟩ := hwaiting.placed
    rw [hgrown.path hcall, hgrown.index task hne, hgrown.site call hmade,
      hgrown.count call hmade, hgrown.child call hmade]
    exact ⟨front, List.Subset.trans hfront hclosed, hplaced⟩
  cover segment hmem := by
    rw [hgrown.path hcall, hgrown.prog hcall] at hmem
    rw [hgrown.path hcall, hgrown.index task hne, hgrown.site call hmade,
      hgrown.count call hmade, hgrown.child call hmade]
    exact (hwaiting.cover segment hmem).imp_left fun hin => hclosed hin

theorem Below.grown {upper lower : Frame Exn}
    (hbelow : Below root closed before upper lower)
    (hgrown : Grown before after mover) (hupper : upper.call < before.calls)
    (hlower : lower.call < before.calls) (hfree : lower.runs mover = 0)
    (hapart : ∀ task, task.call < before.calls → task ≠ mover →
      before.path mover ≠ before.path task)
    (hclosed : closed ⊆ closed') : Below root closed' after upper lower := by
  intro task via next hwait
  have hcall : task.call < before.calls := by simpa [hwait] using hlower
  have hne : task ≠ mover := by
    rintro rfl
    simp [hwait, isTask] at hfree
  obtain ⟨howns, hwaiting⟩ := hbelow task via next hwait
  exact ⟨howns, hwaiting.grown hgrown hcall hupper hne
    (hapart task hcall hne) hclosed⟩

/-- Stacks that do not run the moving task stay sound. -/
theorem Sound.grown {frames : List (Frame Exn)}
    (hsound : Sound root opened closed before frames)
    (hgrown : Grown before after mover)
    (hcalls : ∀ frame ∈ frames, frame.call < before.calls)
    (hfree : ∀ frame ∈ frames, frame.runs mover = 0)
    (hapart : ∀ task, task.call < before.calls → task ≠ mover →
      before.path mover ≠ before.path task)
    (hopened : opened ⊆ opened') (hclosed : closed ⊆ closed') :
    Sound root opened' closed' after frames where
  inside task via prog hmem := by
    have hcall := hcalls _ hmem
    have hne : task ≠ mover := by
      rintro rfl
      simpa [isTask] using hfree _ hmem
    exact (hsound.inside task via prog hmem).grown hgrown hcall hne
      (hapart task hcall hne) hopened hclosed
  chain := by
    apply hsound.chain.imp_of_mem_imp
    intro upper lower hupper hlower hbelow
    exact hbelow.grown hgrown (hcalls _ hupper) (hcalls _ hlower)
      (hfree _ hlower) hapart hclosed

end Growth

end Citor.ForkJoin
