import Citor.ForkJoin.ForkJoinCalls

/-!
# The segments of a fork-join program

The calls of a body cut it into segments.  A segment is named by the place of
its task in the tree of calls and by the number of calls in front of it.  The
segments of a program that nothing disturbs are listed as the sequential
execution comes to them, and next to each those that the joins keep in front
of it: all but the segments of its siblings and of theirs.
-/

namespace Citor.ForkJoin

/-- From the outermost call down: which call of the body, which task of it. -/
abbrev Path := List (ℕ × ℕ)

structure Segment where
  path : Path
  index : ℕ
  deriving DecidableEq, Repr

variable {Exn : Type}

/-- The segments of a body from the `index`-th on. -/
def Prog.serial : Prog Exn → Path → ℕ → List Segment
  | .done _, path, index => [⟨path, index⟩]
  | .poll _ next, path, index => (next false).serial path index
  | .fork _ count child next, path, index =>
      ⟨path, index⟩ ::
        ((List.range count).flatMap fun task =>
          (child task).serial (path ++ [(index, task)]) 0) ++
        (next none).serial path (index + 1)

/-- The segments of a call's tasks. -/
def serialCall (site : Path × ℕ) (count : ℕ) (child : ℕ → Prog Exn) :
    List Segment :=
  (List.range count).flatMap fun task =>
    (child task).serial (site.1 ++ [(site.2, task)]) 0

/-- The same segments, each with what has ended when it starts; `front` has
ended in front of all of them. -/
def Prog.ordered :
    Prog Exn → List Segment → Path → ℕ → List (Segment × List Segment)
  | .done _, front, path, index => [(⟨path, index⟩, front)]
  | .poll _ next, front, path, index => (next false).ordered front path index
  | .fork _ count child next, front, path, index =>
      (⟨path, index⟩, front) ::
        ((List.range count).flatMap fun task =>
          (child task).ordered (front ++ [⟨path, index⟩])
            (path ++ [(index, task)]) 0) ++
        (next none).ordered
          (front ++ ⟨path, index⟩ :: serialCall (path, index) count child) path
          (index + 1)

def orderedCall (front : List Segment) (site : Path × ℕ) (count : ℕ)
    (child : ℕ → Prog Exn) : List (Segment × List Segment) :=
  (List.range count).flatMap fun task =>
    (child task).ordered front (site.1 ++ [(site.2, task)]) 0

/-- Two segments below different tasks of one call. -/
def Apart (first second : Segment) : Prop :=
  ∃ (path : Path) (index left right : ℕ), left ≠ right ∧
    path ++ [(index, left)] <+: first.path ∧
      path ++ [(index, right)] <+: second.path

section Lists

variable {front : List Segment} {path : Path} {index : ℕ} {prog : Prog Exn}

theorem serial_fork (token : Option ℕ) (count : ℕ) (child : ℕ → Prog Exn)
    (next : Option Exn → Prog Exn) (path : Path) (index : ℕ) :
    (Prog.fork token count child next).serial path index =
      ⟨path, index⟩ :: serialCall (path, index) count child ++
        (next none).serial path (index + 1) := rfl

theorem ordered_fork (token : Option ℕ) (count : ℕ) (child : ℕ → Prog Exn)
    (next : Option Exn → Prog Exn) (front : List Segment) (path : Path)
    (index : ℕ) :
    (Prog.fork token count child next).ordered front path index =
      (⟨path, index⟩, front) ::
        orderedCall (front ++ [⟨path, index⟩]) (path, index) count child ++
        (next none).ordered
          (front ++ ⟨path, index⟩ :: serialCall (path, index) count child) path
          (index + 1) := rfl

/-- The running segment is the first one. -/
theorem ordered_eq_cons (prog : Prog Exn) (front : List Segment) (path : Path)
    (index : ℕ) :
    ∃ later,
      prog.ordered front path index = (⟨path, index⟩, front) :: later := by
  induction prog with
  | done result => exact ⟨[], rfl⟩
  | poll token next ih => exact ih false
  | fork token count child next ihChild ihNext => exact ⟨_, rfl⟩

theorem map_fst_ordered (prog : Prog Exn) (front : List Segment) (path : Path)
    (index : ℕ) :
    (prog.ordered front path index).map Prod.fst = prog.serial path index := by
  induction prog generalizing front path index with
  | done result => rfl
  | poll token next ih => exact ih false front path index
  | fork token count child next ihChild ihNext =>
      rw [ordered_fork, serial_fork, List.map_append, List.map_cons, ihNext,
        orderedCall, serialCall, List.map_flatMap]
      simp only [ihChild]

theorem map_fst_orderedCall (front : List Segment) (site : Path × ℕ)
    (count : ℕ) (child : ℕ → Prog Exn) :
    (orderedCall front site count child).map Prod.fst =
      serialCall site count child := by
  simp only [orderedCall, serialCall, List.map_flatMap, map_fst_ordered]

theorem ordered_subset_orderedCall {site : Path × ℕ} {count task : ℕ}
    {child : ℕ → Prog Exn} (htask : task < count) :
    (child task).ordered front (site.1 ++ [(site.2, task)]) 0 ⊆
      orderedCall front site count child := fun _ hmem =>
  List.mem_flatMap.2 ⟨task, List.mem_range.2 htask, hmem⟩

/-- The segments of a body are its own or below one of its calls. -/
theorem path_of_mem_serial {segment : Segment}
    (hmem : segment ∈ prog.serial path index) :
    segment.path = path ∧ index ≤ segment.index ∨
      ∃ call task, index ≤ call ∧ path ++ [(call, task)] <+: segment.path := by
  induction prog generalizing path index with
  | done result =>
      obtain rfl := List.mem_singleton.1 hmem
      exact .inl ⟨rfl, le_rfl⟩
  | poll token next ih => exact ih false hmem
  | fork token count child next ihChild ihNext =>
      rw [serial_fork, List.mem_append, List.mem_cons, serialCall,
        List.mem_flatMap] at hmem
      obtain (rfl | ⟨task, -, hchild⟩) | hnext := hmem
      · exact .inl ⟨rfl, le_rfl⟩
      · right
        refine ⟨index, task, le_rfl, ?_⟩
        obtain ⟨hpath, -⟩ | ⟨call, below, -, hpath⟩ := ihChild task hchild
        · rw [hpath]
        · exact (List.prefix_append _ _).trans hpath
      · obtain ⟨hpath, hindex⟩ | ⟨call, task, hcall, hpath⟩ := ihNext none hnext
        · exact .inl ⟨hpath, by omega⟩
        · exact .inr ⟨call, task, by omega, hpath⟩

theorem path_of_below {segment : Segment}
    (hmem : segment ∈ prog.serial path index) : path <+: segment.path := by
  obtain ⟨hpath, -⟩ | ⟨call, task, -, hpath⟩ := path_of_mem_serial hmem
  · rw [hpath]
  · exact (List.prefix_append _ _).trans hpath

/-- Paths that go different ways below a common one. -/
theorem step_of_common {path other : Path} {left right : ℕ × ℕ}
    (hleft : path ++ [left] <+: other) (hright : path ++ [right] <+: other) :
    left = right := by
  have hprefix := List.prefix_of_prefix_length_le hleft hright (by simp)
  have heq := hprefix.eq_of_length (by simp)
  simpa using heq

/-- Neither of two segments that may overlap lies below the other. -/
theorem Apart.branches {first second : Segment} (hapart : Apart first second) :
    ¬ first.path <+: second.path ∧ ¬ second.path <+: first.path := by
  obtain ⟨path, index, left, right, hne, hleft, hright⟩ := hapart
  constructor
  · intro hbelow
    have hstep := step_of_common (hleft.trans hbelow) hright
    exact hne (congrArg Prod.snd hstep)
  · intro hbelow
    have hstep := step_of_common hleft (hright.trans hbelow)
    exact hne (congrArg Prod.snd hstep)

theorem serialCall_path {site : Path × ℕ} {count : ℕ} {child : ℕ → Prog Exn}
    {segment : Segment} (hmem : segment ∈ serialCall site count child) :
    ∃ task < count, site.1 ++ [(site.2, task)] <+: segment.path := by
  obtain ⟨task, htask, hchild⟩ := List.mem_flatMap.1 hmem
  exact ⟨task, List.mem_range.1 htask, path_of_below hchild⟩

theorem nodup_serialCall_of {site : Path × ℕ} {count : ℕ}
    {child : ℕ → Prog Exn}
    (hchild : ∀ task, ((child task).serial (site.1 ++ [(site.2, task)])
      0).Nodup) : (serialCall site count child).Nodup := by
  rw [serialCall, List.nodup_flatMap]
  constructor
  · exact fun task _ => hchild task
  · apply List.nodup_range.imp
    intro left right hne segment hleft hright
    have hstep := step_of_common (path_of_below hleft)
      (path_of_below hright)
    exact hne (congrArg Prod.snd hstep)

theorem nodup_serial (prog : Prog Exn) (path : Path) (index : ℕ) :
    (prog.serial path index).Nodup := by
  induction prog generalizing path index with
  | done result => exact List.nodup_singleton _
  | poll token next ih => exact ih false path index
  | fork token count child next ihChild ihNext =>
      have hcall : (serialCall (path, index) count child).Nodup :=
        nodup_serialCall_of fun task => ihChild task _ 0
      have hbelow : ∀ segment ∈ serialCall (path, index) count child,
          ∃ task, path ++ [(index, task)] <+: segment.path := by
        intro segment hmem
        obtain ⟨task, -, hpath⟩ := serialCall_path hmem
        exact ⟨task, hpath⟩
      rw [serial_fork, List.cons_append, List.nodup_cons, List.nodup_append,
        List.mem_append, not_or]
      refine ⟨⟨?_, ?_⟩, hcall, ihNext none path (index + 1), ?_⟩
      · intro hmem
        obtain ⟨task, hpath⟩ := hbelow _ hmem
        have hlength := hpath.length_le
        simp at hlength
      · intro hmem
        obtain ⟨-, hindex⟩ | ⟨call, task, -, hpath⟩ := path_of_mem_serial hmem
        · simp at hindex
        · have hlength := hpath.length_le
          simp at hlength
      · rintro segment hmem _ hnext rfl
        obtain ⟨task, hpath⟩ := hbelow _ hmem
        obtain ⟨hsame, -⟩ | ⟨call, other, hcall, hother⟩ :=
          path_of_mem_serial hnext
        · have hlength := hpath.length_le
          rw [hsame] at hlength
          simp at hlength
        · have hstep := congrArg Prod.fst (step_of_common hpath hother)
          simp only at hstep
          omega

theorem nodup_serialCall (site : Path × ℕ) (count : ℕ)
    (child : ℕ → Prog Exn) : (serialCall site count child).Nodup :=
  nodup_serialCall_of fun task => nodup_serial (child task) _ 0

/-! ## What the joins order -/

/-- The front has ended for all segments. -/
theorem front_subset {entry : Segment × List Segment}
    (hmem : entry ∈ prog.ordered front path index) : front ⊆ entry.2 := by
  induction prog generalizing front path index with
  | done result =>
      obtain rfl := List.mem_singleton.1 hmem
      exact List.Subset.refl _
  | poll token next ih => exact ih false hmem
  | fork token count child next ihChild ihNext =>
      rw [ordered_fork, List.mem_append, List.mem_cons, orderedCall,
        List.mem_flatMap] at hmem
      obtain (rfl | ⟨task, -, hchild⟩) | hnext := hmem
      · exact List.Subset.refl _
      · exact List.Subset.trans (List.subset_append_left _ _)
          (ihChild task hchild)
      · exact List.Subset.trans (List.subset_append_left _ _)
          (ihNext none hnext)

/-- One entry keeps another in front of it, or they may overlap. -/
def Settles (first second : Segment × List Segment) : Prop :=
  first.1 ∈ second.2 ∨ Apart first.1 second.1

theorem mem_serial_of_ordered {entry : Segment × List Segment}
    (hmem : entry ∈ prog.ordered front path index) :
    entry.1 ∈ prog.serial path index := by
  rw [← map_fst_ordered prog front]
  exact List.mem_map_of_mem hmem

theorem pairwise_orderedCall_of {site : Path × ℕ} {count : ℕ}
    {child : ℕ → Prog Exn}
    (hchild : ∀ task, ((child task).ordered front
      (site.1 ++ [(site.2, task)]) 0).Pairwise Settles) :
    (orderedCall front site count child).Pairwise Settles := by
  rw [orderedCall, List.pairwise_flatMap]
  constructor
  · exact fun task _ => hchild task
  · apply List.nodup_range.imp
    intro left right hne first hfirst second hsecond
    exact .inr ⟨site.1, site.2, left, right, hne,
      path_of_below (mem_serial_of_ordered hfirst),
      path_of_below (mem_serial_of_ordered hsecond)⟩

theorem pairwise_ordered (prog : Prog Exn) (front : List Segment)
    (path : Path) (index : ℕ) :
    (prog.ordered front path index).Pairwise Settles := by
  induction prog generalizing front path index with
  | done result => exact List.pairwise_singleton _ _
  | poll token next ih => exact ih false front path index
  | fork token count child next ihChild ihNext =>
      have hcall : (orderedCall (front ++ [⟨path, index⟩]) (path, index) count
          child).Pairwise Settles :=
        pairwise_orderedCall_of fun task => ihChild task _ _ 0
      rw [ordered_fork, List.cons_append, List.pairwise_cons,
        List.pairwise_append]
      refine ⟨?_, hcall, ihNext none _ path (index + 1), ?_⟩
      · intro entry hmem
        left
        obtain hmem | hmem := List.mem_append.1 hmem
        · obtain ⟨task, -, hchild⟩ := List.mem_flatMap.1 hmem
          exact front_subset hchild (by simp)
        · exact front_subset hmem (by simp)
      · intro first hfirst second hsecond
        left
        have hserial : first.1 ∈ serialCall (path, index) count child := by
          rw [← map_fst_orderedCall (front ++ [⟨path, index⟩])]
          exact List.mem_map_of_mem hfirst
        exact front_subset hsecond (by simp [hserial])

theorem pairwise_orderedCall (front : List Segment) (site : Path × ℕ)
    (count : ℕ) (child : ℕ → Prog Exn) :
    (orderedCall front site count child).Pairwise Settles :=
  pairwise_orderedCall_of fun task => pairwise_ordered (child task) _ _ 0

end Lists

end Citor.ForkJoin
