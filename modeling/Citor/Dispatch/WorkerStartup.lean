import Citor.Topology.PinOrder

/-!
# Starting the workers of a pool

The part of the pool's constructor that creates the worker threads, with the
calls it makes to the system.  Any call may fail; the failure exits shut the
pool down, which joins every handle of the vector, and throw.
-/

namespace Citor.WorkerStartup

open Citor.MachineWord (uint32Max)
open Citor.PinOrder (Affinity)

/-- What the start of the workers reads. -/
structure Config where
  /-- The participants, the producer included. -/
  effective : ℕ
  workerAffinity : Affinity
  /-- `WorkerState::cpuId` and `WorkerState::ccdId`. -/
  cpuId : ℕ → ℕ
  ccdId : ℕ → ℕ
  ccdGroups : List (List ℕ)
  workerStackBytes : ℕ

/-- The attributes of the whole start and those of one worker. -/
inductive Attrs
  | shared
  | worker (i : ℕ)
  deriving DecidableEq, Repr

/-- The steps that may fail. -/
inductive Step
  | initAttrs (owner : Attrs)
  | setStackSize (owner : Attrs)
  | setAffinity (i : ℕ)
  | create (i : ℕ)
  deriving DecidableEq, Repr

inductive Call
  | initAttrs (owner : Attrs)
  | setStackSize (owner : Attrs) (bytes : ℕ)
  | setAffinity (i : ℕ) (cpus : List ℕ)
  | create (i : ℕ)
  | destroyAttrs (owner : Attrs)
  /-- The shutdown bit of `generation`. -/
  | setShutdownBit
  /-- The shutdown sentinel in a worker's mailbox. -/
  | stampShutdown (slot : ℕ)
  | wakeWorkers
  /-- A handle that was never filled in is `none`. -/
  | join (handle : Option ℕ)
  deriving DecidableEq, Repr

structure Pool where
  workerThreads : List (Option ℕ)
  workerSpawnArgs : List ℕ
  shutdownComplete : Bool
  calls : List Call

/-- The `std::system_error` that is thrown. -/
structure Failure where
  rc : ℕ
  what : String
  deriving DecidableEq, Repr

abbrev Outcome : Type :=
  Pool × Option Failure

def Step.what : Step → String
  | .initAttrs _ => "ThreadPool: pthread_attr_init"
  | .setStackSize _ => "ThreadPool: pthread_attr_setstacksize"
  | .setAffinity _ => "ThreadPool: pthread_attr_setaffinity_np"
  | .create _ => "ThreadPool: pthread_create"

section Start

-- `rc` is what the system returns at each step.
variable (config : Config) (rc : Step → ℕ)

def Pool.call (pool : Pool) (call : Call) : Pool :=
  { pool with calls := pool.calls ++ [call] }

def shutdownAndJoin (pool : Pool) : Pool :=
  if pool.shutdownComplete then pool
  else
    { workerThreads := []
      workerSpawnArgs := []
      shutdownComplete := true
      calls := pool.calls ++ [.setShutdownBit] ++
        (List.range' 1 (config.effective - 1)).map .stampShutdown ++
        [.wakeWorkers] ++ pool.workerThreads.map .join }

/-- A failure exit. -/
def fail (pool : Pool) (step : Step) : Outcome :=
  (shutdownAndJoin config pool, some ⟨rc step, step.what⟩)

def Config.pins (i : ℕ) : Bool :=
  config.cpuId i ≠ uint32Max && config.workerAffinity ≠ .none

/-- The CPUs a worker is bound to before it is created. -/
def Config.affinitySet (i : ℕ) : List ℕ :=
  if config.workerAffinity = .perCluster then
    let ccdIdx := config.ccdId i
    if ccdIdx ≠ uint32Max ∧ ccdIdx < config.ccdGroups.length ∧
        config.ccdGroups.getD ccdIdx [] ≠ [] then
      config.ccdGroups.getD ccdIdx []
    else [config.cpuId i]
  else [config.cpuId i]

/-- `pthread_create` for worker `i` and its failure exit. -/
def createWorker (i : ℕ) (pool : Pool) : Outcome :=
  let pool := (pool.call (.create i)).call (.destroyAttrs (.worker i))
  if rc (.create i) ≠ 0 then
    fail config rc ({ pool with
      workerThreads := pool.workerThreads.take (i - 1)
      workerSpawnArgs := pool.workerSpawnArgs.take (i - 1) }.call
        (.destroyAttrs .shared)) (.create i)
  else
    ({ pool with
      workerThreads := pool.workerThreads.set (i - 1) (some i) }, none)

/-- One round of the loop. -/
def startWorker (i : ℕ) (pool : Pool) : Outcome :=
  let pool := pool.call (.initAttrs (.worker i))
  if rc (.initAttrs (.worker i)) ≠ 0 then
    fail config rc (pool.call (.destroyAttrs .shared)) (.initAttrs (.worker i))
  else
    let pool := pool.call (.setStackSize (.worker i) config.workerStackBytes)
    if rc (.setStackSize (.worker i)) ≠ 0 then
      fail config rc ((pool.call (.destroyAttrs (.worker i))).call
        (.destroyAttrs .shared)) (.setStackSize (.worker i))
    else if config.pins i then
      let pool := pool.call (.setAffinity i (config.affinitySet i))
      if rc (.setAffinity i) ≠ 0 then
        fail config rc ((pool.call (.destroyAttrs (.worker i))).call
          (.destroyAttrs .shared)) (.setAffinity i)
      else createWorker config rc i pool
    else createWorker config rc i pool

/-- The loop over the workers from `i` on. -/
def startFrom : ℕ → ℕ → Pool → Outcome
  | 0, _, pool => (pool.call (.destroyAttrs .shared), none)
  | remaining + 1, i, pool =>
      match startWorker config rc i pool with
      | (pool, some failure) => (pool, some failure)
      | (pool, none) => startFrom remaining (i + 1) pool

/-- The handle vector is sized before the first call. -/
def sized : Pool where
  workerThreads := List.replicate (config.effective - 1) none
  workerSpawnArgs := List.range' 1 (config.effective - 1)
  shutdownComplete := false
  calls := []

def startWorkers : Outcome :=
  if config.effective ≤ 1 then (sized config, none)
  else
    let pool := (sized config).call (.initAttrs .shared)
    if rc (.initAttrs .shared) ≠ 0 then
      fail config rc pool (.initAttrs .shared)
    else
      let pool := pool.call (.setStackSize .shared config.workerStackBytes)
      if rc (.setStackSize .shared) ≠ 0 then
        fail config rc (pool.call (.destroyAttrs .shared))
          (.setStackSize .shared)
      else startFrom config rc (config.effective - 1) 1 pool

/-- The steps of a start in which nothing fails, in order. -/
def Config.workerSteps (i : ℕ) : List Step :=
  [.initAttrs (.worker i), .setStackSize (.worker i)] ++
    (if config.pins i then [.setAffinity i] else []) ++ [.create i]

def Config.steps : List Step :=
  if config.effective ≤ 1 then []
  else [.initAttrs .shared, .setStackSize .shared] ++
    (List.range' 1 (config.effective - 1)).flatMap config.workerSteps

/-- The step that ends the start. -/
def firstFailure : Option Step :=
  config.steps.find? fun step => rc step ≠ 0

end Start

/-! ## What a clean-up owes -/

/-- The threads that the calls have created. -/
def created (rc : Step → ℕ) (calls : List Call) : List ℕ :=
  calls.filterMap fun
    | .create i => if rc (.create i) = 0 then some i else none
    | _ => none

def joined (calls : List Call) : List (Option ℕ) :=
  calls.filterMap fun
    | .join handle => some handle
    | _ => none

/-- Shutdown is signalled before anything is joined, every created thread is
joined once and nothing else, and the constructor throws. -/
structure CleanedUp (rc : Step → ℕ) (outcome : Outcome) : Prop where
  signals : ∃ earlier later,
    outcome.1.calls = earlier ++ .setShutdownBit :: later ∧
      joined earlier = []
  joinsEach : ∀ i ∈ created rc outcome.1.calls,
    (joined outcome.1.calls).count (some i) = 1
  joinsOnly : ∀ handle ∈ joined outcome.1.calls,
    ∃ i ∈ created rc outcome.1.calls, handle = some i
  throws : outcome.2 ≠ none

/-- The pool in front of worker `i`. -/
structure Started (config : Config) (rc : Step → ℕ) (i : ℕ) (pool : Pool) :
    Prop where
  threads : pool.workerThreads = (List.range' 1 (i - 1)).map some ++
    List.replicate (config.effective - i) none
  running : pool.shutdownComplete = false
  joined : joined pool.calls = []
  created : created rc pool.calls = List.range' 1 (i - 1)

section Facts

variable {config : Config} {rc : Step → ℕ} {pool : Pool} {i : ℕ} {step : Step}

theorem joined_append (front back : List Call) :
    joined (front ++ back) = joined front ++ joined back :=
  List.filterMap_append

theorem created_append (front back : List Call) :
    created rc (front ++ back) = created rc front ++ created rc back :=
  List.filterMap_append

theorem created_joins (handles : List (Option ℕ)) :
    created rc (handles.map .join) = [] := by
  induction handles with
  | nil => rfl
  | cons handle handles ih => exact ih

theorem joined_joins (handles : List (Option ℕ)) :
    joined (handles.map .join) = handles := by
  induction handles with
  | nil => rfl
  | cons handle handles ih => exact congrArg (handle :: ·) ih

theorem created_stamps (slots : List ℕ) :
    created rc (slots.map .stampShutdown) = [] := by
  induction slots with
  | nil => rfl
  | cons slot slots ih => exact ih

theorem joined_stamps (slots : List ℕ) :
    joined (slots.map .stampShutdown) = [] := by
  induction slots with
  | nil => rfl
  | cons slot slots ih => exact ih

theorem calls_fail (hrunning : pool.shutdownComplete = false) :
    (fail config rc pool step).1.calls =
      pool.calls ++ .setShutdownBit ::
        ((List.range' 1 (config.effective - 1)).map .stampShutdown ++
          .wakeWorkers :: pool.workerThreads.map .join) := by
  simp [fail, shutdownAndJoin, hrunning]

theorem joined_fail (hrunning : pool.shutdownComplete = false)
    (hjoined : joined pool.calls = []) :
    joined (fail config rc pool step).1.calls = pool.workerThreads := by
  rw [calls_fail hrunning, joined_append, hjoined, List.nil_append]
  calc joined (.setShutdownBit :: _)
      = joined ((List.range' 1 (config.effective - 1)).map .stampShutdown) ++
          joined (.wakeWorkers :: pool.workerThreads.map .join) :=
        joined_append _ _
    _ = joined (pool.workerThreads.map .join) := by
        rw [joined_stamps, List.nil_append]; rfl
    _ = pool.workerThreads := joined_joins _

theorem created_fail (hrunning : pool.shutdownComplete = false) :
    created rc (fail config rc pool step).1.calls = created rc pool.calls := by
  rw [calls_fail hrunning, created_append]
  have hlater : created rc (.setShutdownBit ::
      ((List.range' 1 (config.effective - 1)).map .stampShutdown ++
        .wakeWorkers :: pool.workerThreads.map .join)) = [] :=
    calc created rc (.setShutdownBit :: _)
        = created rc ((List.range' 1 (config.effective - 1)).map
            .stampShutdown) ++
          created rc (.wakeWorkers :: pool.workerThreads.map .join) :=
          created_append _ _
      _ = created rc (pool.workerThreads.map .join) := by
          rw [created_stamps, List.nil_append]; rfl
      _ = [] := created_joins _
  rw [hlater, List.append_nil]

/-- A failure exit cleans up as long as no handle was left unfilled. -/
theorem cleanedUp_fail_iff {count missing : ℕ}
    (hrunning : pool.shutdownComplete = false)
    (hjoined : joined pool.calls = [])
    (hcreated : created rc pool.calls = List.range' 1 count)
    (hthreads : pool.workerThreads =
      (List.range' 1 count).map some ++ List.replicate missing none) :
    CleanedUp rc (fail config rc pool step) ↔ missing = 0 := by
  have hjoins : joined (fail config rc pool step).1.calls =
      (List.range' 1 count).map some ++ List.replicate missing none :=
    (joined_fail hrunning hjoined).trans hthreads
  have hcreates : created rc (fail config rc pool step).1.calls =
      List.range' 1 count :=
    (created_fail hrunning).trans hcreated
  constructor
  · intro hclean
    by_contra hmissing
    obtain ⟨i, -, hhandle⟩ := hclean.joinsOnly none (by
      rw [hjoins]
      exact List.mem_append_right _
        (List.mem_replicate.mpr ⟨hmissing, rfl⟩))
    exact nomatch hhandle
  · rintro rfl
    rw [List.replicate_zero, List.append_nil] at hjoins
    refine ⟨⟨_, _, calls_fail hrunning, hjoined⟩, fun i hi => ?_,
      fun handle hhandle => ?_, Option.some_ne_none _⟩
    · rw [hcreates] at hi
      rw [hjoins]
      exact List.count_eq_one_of_mem
        ((List.nodup_range' 1).map (Option.some_injective ℕ))
        (List.mem_map_of_mem hi)
    · rw [hjoins] at hhandle
      obtain ⟨i, hi, rfl⟩ := List.mem_map.mp hhandle
      exact ⟨i, hcreates ▸ hi, rfl⟩

/-- A call that neither creates nor joins a thread. -/
def Quiet (rc : Step → ℕ) (call : Call) : Prop :=
  joined [call] = [] ∧ created rc [call] = []

theorem Started.call {call : Call} (hpool : Started config rc i pool)
    (hquiet : Quiet rc call) : Started config rc i (pool.call call) where
  threads := hpool.threads
  running := hpool.running
  joined := by
    rw [Pool.call, joined_append, hpool.joined, hquiet.1]; rfl
  created := by
    rw [Pool.call, created_append, hpool.created, hquiet.2, List.append_nil]

/-- While handles are unfilled, a failure exit joins one of them. -/
theorem Started.not_cleanedUp_fail (hpool : Started config rc i pool)
    (hi : i < config.effective) :
    ¬CleanedUp rc (fail config rc pool step) := by
  rw [cleanedUp_fail_iff hpool.running hpool.joined hpool.created
    hpool.threads]
  omega

/-- What is left of a start whose first failing step is `failed`. -/
structure Ends (config : Config) (rc : Step → ℕ) (failed : Option Step)
    (outcome : Outcome) : Prop where
  throws : outcome.2 = failed.map fun step => ⟨rc step, step.what⟩
  cleans : ∀ step, failed = some step →
    (CleanedUp rc outcome ↔ ∃ i, step = .create i)

theorem Started.ends_fail (hpool : Started config rc i pool)
    (hi : i < config.effective) (hstep : ∀ i, step ≠ .create i) :
    Ends config rc (some step) (fail config rc pool step) where
  throws := rfl
  cleans := by
    rintro _ ⟨⟩
    exact iff_of_false (hpool.not_cleanedUp_fail hi) fun ⟨i, heq⟩ =>
      hstep i heq

/-- The handle that a successful creation fills in. -/
theorem Started.set_thread (hpool : Started config rc i pool) (hpos : 1 ≤ i)
    (hi : i < config.effective) :
    pool.workerThreads.set (i - 1) (some i) =
      (List.range' 1 i).map some ++
        List.replicate (config.effective - (i + 1)) none := by
  obtain ⟨count, rfl⟩ : ∃ count, i = count + 1 := ⟨i - 1, by omega⟩
  obtain ⟨missing, hmissing⟩ :
      ∃ missing, config.effective = count + 1 + (missing + 1) :=
    ⟨config.effective - (count + 2), by omega⟩
  have hthreads := hpool.threads
  rw [show config.effective - (count + 1) = missing + 1 by omega,
    show count + 1 - 1 = count by omega, List.replicate_succ] at hthreads
  have hlength : ((List.range' 1 count).map some).length = count := by simp
  rw [hthreads, show count + 1 - 1 = count by omega,
    List.set_append_right _ _ hlength.le, hlength, Nat.sub_self,
    List.set_cons_zero, List.range'_concat, List.map_append,
    List.append_assoc, show config.effective - (count + 1 + 1) = missing by
      omega]
  simp [Nat.add_comm]

theorem createWorker_ends (hpool : Started config rc i pool) (hpos : 1 ≤ i)
    (hi : i < config.effective) :
    Ends config rc (if rc (.create i) ≠ 0 then some (.create i) else none)
        (createWorker config rc i pool) ∧
      (rc (.create i) = 0 →
        Started config rc (i + 1) (createWorker config rc i pool).1) := by
  by_cases hrc : rc (.create i) = 0
  · have hcalls : created rc (pool.calls ++ [.create i] ++
        [.destroyAttrs (.worker i)]) = List.range' 1 i := by
      have hfills : created rc [.create i] = [i] := by simp [created, hrc]
      rw [created_append, created_append, hpool.created, hfills,
        show i = i - 1 + 1 by omega, List.range'_concat]
      simp [created, Nat.add_comm]
    rw [createWorker, if_neg (not_not.mpr hrc), if_neg (not_not.mpr hrc)]
    refine ⟨⟨rfl, fun _ h => nomatch h⟩, fun _ =>
      ⟨hpool.set_thread hpos hi, hpool.running, ?_, hcalls⟩⟩
    simp only [Pool.call, joined_append, hpool.joined]
    rfl
  · have hcalls : created rc (pool.calls ++ [.create i] ++
        [.destroyAttrs (.worker i)] ++ [.destroyAttrs .shared]) =
        List.range' 1 (i - 1) := by
      have hfills : created rc [.create i] = [] := by simp [created, hrc]
      simp only [created_append, hpool.created, hfills]
      simp [created]
    have hlength : ((List.range' 1 (i - 1)).map some).length = i - 1 := by
      simp
    have hthreads : pool.workerThreads.take (i - 1) =
        (List.range' 1 (i - 1)).map some ++ List.replicate 0 none := by
      rw [hpool.threads, List.take_append_of_le_length hlength.ge,
        List.take_of_length_le hlength.le]
      simp
    have hjoined : joined (pool.calls ++ [.create i] ++
        [.destroyAttrs (.worker i)] ++ [.destroyAttrs .shared]) = [] := by
      simp only [joined_append, hpool.joined]
      rfl
    rw [createWorker, if_pos hrc, if_pos hrc]
    refine ⟨⟨rfl, ?_⟩, fun h => absurd h hrc⟩
    rintro _ ⟨⟩
    refine iff_of_true ?_ ⟨i, rfl⟩
    exact (cleanedUp_fail_iff (by exact hpool.running) hjoined hcalls
      hthreads).mpr rfl

/-- One round of the loop. -/
theorem startWorker_ends (hpool : Started config rc i pool) (hpos : 1 ≤ i)
    (hi : i < config.effective) :
    Ends config rc ((config.workerSteps i).find? fun step => rc step ≠ 0)
        (startWorker config rc i pool) ∧
      (((config.workerSteps i).find? fun step => rc step ≠ 0) = none →
        Started config rc (i + 1) (startWorker config rc i pool).1) := by
  have hinit : Started config rc i (pool.call (.initAttrs (.worker i))) :=
    hpool.call ⟨rfl, rfl⟩
  have hstack : Started config rc i ((pool.call (.initAttrs (.worker i))).call
      (.setStackSize (.worker i) config.workerStackBytes)) :=
    hinit.call ⟨rfl, rfl⟩
  by_cases hinitRc : rc (.initAttrs (.worker i)) = 0
  case neg =>
    have hfail : (config.workerSteps i).find? (fun step => rc step ≠ 0) =
        some (.initAttrs (.worker i)) := by
      simp [Config.workerSteps, hinitRc]
    rw [hfail, startWorker, if_pos hinitRc]
    exact ⟨(hinit.call ⟨rfl, rfl⟩).ends_fail hi fun _ => nofun, nofun⟩
  by_cases hstackRc : rc (.setStackSize (.worker i)) = 0
  case neg =>
    have hfail : (config.workerSteps i).find? (fun step => rc step ≠ 0) =
        some (.setStackSize (.worker i)) := by
      simp [Config.workerSteps, hinitRc, hstackRc]
    rw [hfail, startWorker, if_neg (not_not.mpr hinitRc), if_pos hstackRc]
    exact ⟨((hstack.call ⟨rfl, rfl⟩).call ⟨rfl, rfl⟩).ends_fail hi
      fun _ => nofun, nofun⟩
  rw [startWorker, if_neg (not_not.mpr hinitRc), if_neg (not_not.mpr hstackRc)]
  by_cases hpins : config.pins i
  case neg =>
    have hfirst : (config.workerSteps i).find? (fun step => rc step ≠ 0) =
        if rc (.create i) ≠ 0 then some (.create i) else none := by
      by_cases hrc : rc (.create i) = 0 <;>
        simp [Config.workerSteps, hinitRc, hstackRc, hpins, hrc]
    rw [hfirst, if_neg hpins]
    exact (createWorker_ends hstack hpos hi).imp_right fun hnext hnone =>
      hnext (by_contra fun hrc => by rw [if_pos hrc] at hnone; cases hnone)
  have hpin : Started config rc i (((pool.call (.initAttrs (.worker i))).call
      (.setStackSize (.worker i) config.workerStackBytes)).call
        (.setAffinity i (config.affinitySet i))) :=
    hstack.call ⟨rfl, rfl⟩
  rw [if_pos hpins]
  by_cases hpinRc : rc (.setAffinity i) = 0
  case neg =>
    have hfail : (config.workerSteps i).find? (fun step => rc step ≠ 0) =
        some (.setAffinity i) := by
      simp [Config.workerSteps, hinitRc, hstackRc, hpins, hpinRc]
    rw [hfail, if_pos hpinRc]
    exact ⟨((hpin.call ⟨rfl, rfl⟩).call ⟨rfl, rfl⟩).ends_fail hi
      fun _ => nofun, nofun⟩
  have hfirst : (config.workerSteps i).find? (fun step => rc step ≠ 0) =
      if rc (.create i) ≠ 0 then some (.create i) else none := by
    by_cases hrc : rc (.create i) = 0 <;>
      simp [Config.workerSteps, hinitRc, hstackRc, hpins, hpinRc, hrc]
  rw [hfirst, if_neg (not_not.mpr hpinRc)]
  exact (createWorker_ends hpin hpos hi).imp_right fun hnext hnone =>
    hnext (by_contra fun hrc => by rw [if_pos hrc] at hnone; cases hnone)

theorem startFrom_ends {remaining : ℕ} (hpool : Started config rc i pool)
    (hpos : 1 ≤ i) (hi : i + remaining = config.effective) :
    Ends config rc (((List.range' i remaining).flatMap config.workerSteps).find?
        fun step => rc step ≠ 0) (startFrom config rc remaining i pool) := by
  induction remaining generalizing i pool with
  | zero => exact ⟨rfl, nofun⟩
  | succ remaining ih =>
      obtain ⟨hends, hnext⟩ := startWorker_ends hpool hpos (by omega)
      rw [List.range'_succ, List.flatMap_cons, List.find?_append, startFrom]
      cases hfirst : (config.workerSteps i).find? fun step => rc step ≠ 0 with
      | none =>
          rw [hfirst] at hends
          have hout : startWorker config rc i pool =
              ((startWorker config rc i pool).1, none) :=
            Prod.ext rfl hends.throws
          rw [hout, Option.none_or]
          exact ih (hnext hfirst) (by omega) (by omega)
      | some step =>
          rw [hfirst] at hends
          have hout : startWorker config rc i pool =
              ((startWorker config rc i pool).1, some ⟨rc step, step.what⟩) :=
            Prod.ext rfl hends.throws
          rw [hout] at hends ⊢
          rw [Option.some_or]
          exact hends

theorem started_sized : Started config rc 1 (sized config) where
  threads := rfl
  running := rfl
  joined := rfl
  created := rfl

theorem startWorkers_ends :
    Ends config rc (firstFailure config rc) (startWorkers config rc) := by
  have hpool : Started config rc 1 (sized config) := started_sized
  by_cases hworkers : config.effective ≤ 1
  · rw [startWorkers, if_pos hworkers, firstFailure, Config.steps,
      if_pos hworkers]
    exact ⟨rfl, nofun⟩
  rw [startWorkers, if_neg hworkers]
  by_cases hinitRc : rc (.initAttrs .shared) = 0
  case neg =>
    have hfail : firstFailure config rc = some (.initAttrs .shared) := by
      simp [firstFailure, Config.steps, hworkers, hinitRc]
    rw [hfail, if_pos hinitRc]
    exact (hpool.call ⟨rfl, rfl⟩).ends_fail (by omega) fun _ => nofun
  rw [if_neg (not_not.mpr hinitRc)]
  by_cases hstackRc : rc (.setStackSize .shared) = 0
  case neg =>
    have hfail : firstFailure config rc = some (.setStackSize .shared) := by
      simp [firstFailure, Config.steps, hworkers, hinitRc, hstackRc]
    rw [hfail, if_pos hstackRc]
    exact (((hpool.call ⟨rfl, rfl⟩).call ⟨rfl, rfl⟩).call ⟨rfl, rfl⟩).ends_fail
      (by omega) fun _ => nofun
  have hfirst : firstFailure config rc =
      ((List.range' 1 (config.effective - 1)).flatMap config.workerSteps).find?
        fun step => rc step ≠ 0 := by
    simp [firstFailure, Config.steps, hworkers, hinitRc, hstackRc]
  rw [hfirst, if_neg (not_not.mpr hstackRc)]
  exact startFrom_ends ((hpool.call ⟨rfl, rfl⟩).call ⟨rfl, rfl⟩) le_rfl
    (by omega)

end Facts

/-- A start that fails is cleaned up exactly when it is a creation that
fails: the other exits join the handles that are still unfilled. -/
theorem cleanedUp_iff_create_fails (config : Config) (rc : Step → ℕ) :
    (∀ step, firstFailure config rc = some step →
        CleanedUp rc (startWorkers config rc)) ↔
      ∀ step, firstFailure config rc = some step → ∃ i, step = .create i :=
  forall_congr' fun step => forall_congr' fun hstep =>
    startWorkers_ends.cleans step hstep

/-- One worker, and a stack size that the system refuses with `EINVAL`. -/
theorem smallStack_joins_unfilled :
    let config : Config :=
      { effective := 2
        workerAffinity := .none
        cpuId := fun _ => uint32Max
        ccdId := fun _ => uint32Max
        ccdGroups := []
        workerStackBytes := 4096 }
    let rc : Step → ℕ := fun
      | .setStackSize _ => 22
      | _ => 0
    firstFailure config rc = some (.setStackSize .shared) ∧
      joined (startWorkers config rc).1.calls = [none] ∧
      ¬CleanedUp rc (startWorkers config rc) := by
  refine ⟨rfl, rfl, fun hclean => ?_⟩
  obtain ⟨i, -, hhandle⟩ := hclean.joinsOnly none (by decide)
  exact nomatch hhandle

end Citor.WorkerStartup
