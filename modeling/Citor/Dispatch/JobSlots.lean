import Citor.Dispatch.ShareEvents

/-!
# What holds of one slot

The last full publication on a slot says what its worker's caches should hold.
A worker that has not finished with a full publication is acknowledged to
nobody, and the producer either still waits for it or has put it into the
cold-stamped mask.  A worker that is late for a reuse publication finds its
rank claimed.  Each operation of a worker and each operation of the producer on
the slot keeps these facts.
-/

namespace Citor.JobCaches

open BlockRunners (Balance RankPc)
open WorkerSlots (MailboxWord Mailbox)

/-! ## Caches -/

section Caches

variable (program : Program)

def Job.desc (job : Job) : DescId := job.call.desc program

def Job.entry (job : Job) : Entry := job.call.entry program

/-- Workers race the producer for the ranks of a word. -/
def Job.Claims (job : Job) (mailbox : Mailbox) : Prop :=
  job.call.primitive program = .parallelFor ∧ mailbox.skipClaim = false

instance (job : Job) (mailbox : Mailbox) :
    Decidable (job.Claims program mailbox) :=
  inferInstanceAs (Decidable (_ ∧ _))

/-- The locals of the main loop are those of the job, and the fields of the
cache that are not in `remaining` as well. -/
structure HalfSynced (job : Job) (remaining : List Field)
    (worker : Worker) : Prop where
  cachedDesc : worker.cachedDesc = some (job.desc program)
  entry : worker.cachedWorkerEntry = job.call.workerEntry
  cold : worker.cachedColdCollapse =
    decide (job.call.primitive program = .parallelFor)
  copied : ∀ field ∈ (job.entry program).kind.copied, field ∉ remaining →
    (worker.cache program).fields field = job.call.value program field

/-- The worker has read the job. -/
structure Synced (job : Job) (worker : Worker) : Prop extends
    HalfSynced program job [] worker where
  primed : (worker.cache program).primed = true

variable {program} {job : Job} {worker : Worker}

theorem primitive_iff_typed (call : Call) :
    call.primitive program = .parallelFor ↔
      ∃ balance, (call.entry program).kind = .typed balance := by
  unfold Call.primitive
  cases (call.entry program).kind <;> simp

theorem HalfSynced.entry_eq {remaining : List Field}
    (hhalf : HalfSynced program job remaining worker) :
    worker.entry program = job.entry program := by
  simp [Worker.entry, Job.entry, Call.entry, hhalf.entry]

theorem HalfSynced.coldCollapseDispatch {remaining : List Field}
    (hhalf : HalfSynced program job remaining worker) (mailbox : Mailbox) :
    worker.coldCollapseDispatch mailbox =
      decide (job.Claims program mailbox) := by
  rw [Bool.eq_iff_iff, decide_eq_true_iff]
  simp [WorkerSlots.Worker.coldCollapseDispatch, hhalf.cold, Job.Claims]

/-- A synced worker claims on its own pool, where the job lets it. -/
theorem Synced.claims (hsynced : Synced program job worker)
    (mailbox : Mailbox) :
    worker.claims program mailbox =
      if job.Claims program mailbox then some job.call.pool else none := by
  have hentry := hsynced.entry_eq
  cases hkind : (job.entry program).kind with
  | contiguous =>
      have hreduce : ¬ job.call.primitive program = .parallelFor := by
        rw [primitive_iff_typed]
        have : (job.call.entry program).kind = .contiguous := hkind
        simp [this]
      simp [Worker.claims, hentry, hkind, Job.Claims, hreduce]
  | typed balance =>
      have hfor : job.call.primitive program = .parallelFor :=
        (primitive_iff_typed _).2 ⟨balance, hkind⟩
      have hbase := hsynced.copied .workerStateBase
        (by simp [hkind, EntryKind.copied]) (by simp)
      simp only [Call.value, hfor, if_true] at hbase
      cases hskip : mailbox.skipClaim <;>
        simp [Worker.claims, hentry, hkind, Job.Claims, hfor, hbase, hskip]

theorem Synced.of_claims (hsynced : Synced program job worker)
    {mailbox : Mailbox} {target : ℕ}
    (hsome : worker.claims program mailbox = some target) :
    job.Claims program mailbox := by
  rw [hsynced.claims] at hsome
  by_contra hnot
  simp [hnot] at hsome

/-- A synced worker runs its share with the parameters of the job's call. -/
theorem Synced.params (hsynced : Synced program job worker) :
    worker.params program = job.call.params program := by
  have hcopied : ∀ field, field ≠ .workerStateBase →
      field ∈ (EntryKind.copied .contiguous) →
      (worker.cache program).fields field = job.call.value program field := by
    intro field hbase hmem
    refine hsynced.copied field ?_ (by simp)
    cases (job.entry program).kind
    · simp only [EntryKind.copied, List.mem_cons] at hmem ⊢
      tauto
    · exact hmem
  simp only [Worker.params, Call.params, Fields.params, hsynced.entry]
  rw [hcopied .fnPtr (by simp) (by simp [EntryKind.copied]),
    hcopied .first (by simp) (by simp [EntryKind.copied]),
    hcopied .last (by simp) (by simp [EntryKind.copied]),
    hcopied .chunk (by simp) (by simp [EntryKind.copied]),
    hcopied .blockCount (by simp) (by simp [EntryKind.copied]),
    hcopied .participants (by simp) (by simp [EntryKind.copied])]

end Caches

/-! ## Where a worker stands towards its word -/

/-- The mailbox a worker carries. -/
def WorkerPc.carried : WorkerPc → Option Mailbox
  | .load => none
  | .enter mailbox | .readEntry mailbox _ | .readBase mailbox _ _
  | .copy mailbox _ | .claim mailbox | .body mailbox _ | .stamp mailbox _
  | .acknowledge mailbox => some mailbox

inductive Standing
  /-- It has not taken the word up: it is about to load it, or still carries an
  earlier one. -/
  | fresh
  /-- It carries the word and reads its descriptor. -/
  | reading
  /-- It is about to claim. -/
  | ready
  | running (place : RankPc)
  /-- It is about to stamp or to acknowledge. -/
  | leaving
  | finished
  deriving DecidableEq, Repr

/-- The share has not begun on the worker. -/
def Standing.Before : Standing → Prop
  | .fresh | .reading | .ready => True
  | .running _ | .leaving | .finished => False

/-- The worker's caches may be older than the word. -/
def Standing.Behind : Standing → Prop
  | .fresh | .reading => True
  | .ready | .running _ | .leaving | .finished => False

def Slot.standing (slot : Slot) : Standing :=
  match slot.worker.pc with
  | .load =>
      if slot.worker.lastSeen.generation = slot.mailbox.generation then
        .finished
      else .fresh
  | .enter mailbox =>
      if mailbox.generation = slot.mailbox.generation then
        if mailbox.reuse then .ready else .reading
      else .fresh
  | .readEntry _ _ | .readBase _ _ _ | .copy _ _ => .reading
  | .claim mailbox =>
      if mailbox.generation = slot.mailbox.generation then .ready else .fresh
  | .body _ place => .running place
  | .stamp mailbox _ | .acknowledge mailbox =>
      if mailbox.generation = slot.mailbox.generation then .leaving
      else .fresh

/-- What the producer is about to do with a slot of its pool. -/
inductive Turn
  /-- Nothing: the slot's word belongs to a dispatch it has joined. -/
  | closed
  /-- The word is published and the producer has not come to the slot. -/
  | opened
  /-- It runs the slot's rank. -/
  | covered
  /-- It is about to set the cold-stamped bit. -/
  | marking
  deriving DecidableEq, Repr

section SlotInvariant

variable (program : Program)

/-- A late worker carries a reuse word whose rank is claimed, and has the
caches of some job of its pool that claims. -/
def Slot.Late (slot : Slot) (pool : ℕ) (mailbox : Mailbox) : Prop :=
  mailbox.reuse = true ∧ mailbox.generation ≤ slot.claimedAt ∧
    ∃ old : Job, old.call.pool = pool ∧ Synced program old slot.worker ∧
      old.Claims program mailbox

/-- What the program counter alone says. -/
def Slot.PcOk (slot : Slot) (pool : ℕ) (job : Job) : Prop :=
  match slot.worker.pc with
  | .load => True
  | .enter mailbox | .claim mailbox | .acknowledge mailbox =>
      mailbox.generation ≠ slot.mailbox.generation →
        slot.Late program pool mailbox
  | .readEntry mailbox desc =>
      mailbox.generation = slot.mailbox.generation ∧
        mailbox.reuse = false ∧ desc = job.desc program
  | .readBase mailbox desc workerEntry =>
      mailbox.generation = slot.mailbox.generation ∧
        mailbox.reuse = false ∧ desc = job.desc program ∧
        workerEntry = job.call.workerEntry
  | .copy mailbox remaining =>
      mailbox.generation = slot.mailbox.generation ∧
        mailbox.reuse = false ∧ HalfSynced program job remaining slot.worker ∧
        ∀ field ∈ remaining, field ∈ (job.entry program).kind.copied
  | .body mailbox place =>
      mailbox.generation = slot.mailbox.generation ∧ place ≠ .returned
  | .stamp mailbox coldCollapseDispatch =>
      if mailbox.generation = slot.mailbox.generation then
        coldCollapseDispatch = decide (job.Claims program mailbox)
      else slot.Late program pool mailbox ∧ coldCollapseDispatch = true

/-- The invariant of a slot: `job` is the last full publication on it, `turn`
what the producer does with it, and `place` where its rank is in the open
dispatch. -/
structure SlotInv (pool : ℕ) (job : Job) (turn : Turn)
    (place : Option RankPc) (slot : Slot) : Prop where
  pool_eq : job.call.pool = pool
  full : slot.mailbox.reuse = false →
    job.generation = slot.mailbox.generation
  reuse : slot.mailbox.reuse = true →
    job.generation < slot.mailbox.generation
  claimedAt_le : slot.claimedAt ≤ slot.mailbox.generation
  seen : slot.worker.lastSeen.generation ≤ slot.mailbox.generation ∧
    (slot.worker.lastSeen.generation = slot.mailbox.generation →
      slot.worker.lastSeen.seenPhase = slot.mailbox.seenPhase)
  carried : ∀ mailbox, slot.worker.pc.carried = some mailbox →
    mailbox.generation ≤ slot.mailbox.generation ∧
    (mailbox.generation = slot.mailbox.generation →
      mailbox.seenPhase = slot.mailbox.seenPhase)
  pcOk : slot.PcOk program pool job
  synced : 0 < slot.mailbox.generation →
    slot.mailbox.reuse = true ∨ ¬ slot.standing.Behind →
    Synced program job slot.worker
  unclaimed : job.Claims program slot.mailbox →
    slot.claimedAt < slot.mailbox.generation →
    turn = .opened ∧ place = none ∧ slot.standing.Before
  raced : job.Claims program slot.mailbox → slot.standing.Before →
    slot.mailbox.generation ≤ slot.claimedAt → turn ≠ .opened
  unraced : ¬ job.Claims program slot.mailbox →
    (slot.standing.Before → turn = .opened ∧ place = none) ∧
    (turn = .closed → slot.standing = .finished) ∧
    (turn = .opened ∨ turn = .closed)
  running : ∀ rankPc, slot.standing = .running rankPc →
    turn = .opened ∧ place = some rankPc ∧ slot.mailbox.done = false
  left : slot.standing = .leaving ∨ slot.standing = .finished →
    turn = .opened → place = some .returned
  done : slot.mailbox.done = true → turn = .opened ∨ turn = .covered →
    slot.standing = .finished
  acked : slot.mailbox.reuse = false → slot.mailbox.acked = true →
    slot.standing = .finished
  cold : slot.coldStamped = true → turn = .closed ∧
    slot.mailbox.reuse = false ∧ job.Claims program slot.mailbox
  uncovered : turn = .closed → slot.mailbox.reuse = false →
    slot.standing ≠ .finished → slot.coldStamped = true
  desc : slot.mailbox.reuse = false → slot.standing.Behind →
    slot.mailboxDesc = some (job.desc program)

end SlotInvariant

/-! ## Steps of the worker -/

section WorkerSteps

variable {program : Program} {pool : ℕ} {job : Job} {turn : Turn}
variable {place : Option RankPc} {slot : Slot}

theorem Job.claims_congr {left right : Mailbox}
    (hphase : left.seenPhase = right.seenPhase) :
    job.Claims program left ↔ job.Claims program right := by
  simp [Job.Claims, (MailboxWord.of_seenPhase hphase).2.2]

/-- A worker that has not begun its share moves on. -/
theorem SlotInv.advance (hinv : SlotInv program pool job turn place slot)
    (worker : Worker) (hbefore : slot.standing.Before)
    (hbefore' : ({ slot with worker := worker } : Slot).standing.Before)
    (hbehind : ({ slot with worker := worker } : Slot).standing.Behind →
      slot.standing.Behind)
    (hseen : worker.lastSeen = slot.worker.lastSeen)
    (hcarried : ∀ mailbox, worker.pc.carried = some mailbox →
      mailbox.generation ≤ slot.mailbox.generation ∧
      (mailbox.generation = slot.mailbox.generation →
        mailbox.seenPhase = slot.mailbox.seenPhase))
    (hpcOk : ({ slot with worker := worker } : Slot).PcOk program pool job)
    (hsynced : 0 < slot.mailbox.generation → slot.mailbox.reuse = true ∨
      ¬ ({ slot with worker := worker } : Slot).standing.Behind →
      Synced program job worker) :
    SlotInv program pool job turn place { slot with worker := worker } := by
  have hnot : ∀ {standing : Standing}, standing.Before →
      standing ≠ .finished ∧ standing ≠ .leaving ∧
        ∀ rankPc, standing ≠ .running rankPc := by
    intro standing hstanding
    cases standing <;> simp_all [Standing.Before]
  have hold := hnot hbefore
  have hnew := hnot hbefore'
  exact {
    hinv with
    seen := by rw [hseen]; exact hinv.seen
    carried := hcarried
    pcOk := hpcOk
    synced := hsynced
    unclaimed := fun hclaims hless =>
      ⟨(hinv.unclaimed hclaims hless).1, (hinv.unclaimed hclaims hless).2.1,
        hbefore'⟩
    raced := fun hclaims _ hge => hinv.raced hclaims hbefore hge
    unraced := fun hclaims => by
      obtain ⟨hopen, hclosed, hturn⟩ := hinv.unraced hclaims
      exact ⟨fun _ => hopen hbefore,
        fun hturn => absurd (hclosed hturn) hold.1, hturn⟩
    running := fun rankPc hrunning => absurd hrunning (hnew.2.2 rankPc)
    left := fun hleft => absurd hleft (by simp [hnew.1, hnew.2.1])
    done := fun hdone hturn => absurd (hinv.done hdone hturn) hold.1
    acked := fun hreuse hacked => absurd (hinv.acked hreuse hacked) hold.1
    uncovered := fun hturn hreuse _ => hinv.uncovered hturn hreuse hold.1
    desc := fun hreuse hstanding => hinv.desc hreuse (hbehind hstanding) }

/-- The word is loaded and found new. -/
theorem SlotInv.load (hinv : SlotInv program pool job turn place slot)
    (hpc : slot.worker.pc = .load)
    (hphase : slot.mailbox.seenPhase ≠ slot.worker.lastSeen.seenPhase) :
    SlotInv program pool job turn place (slot.at (.enter slot.mailbox)) := by
  have hfresh : slot.standing = .fresh := by
    have hgen : slot.worker.lastSeen.generation ≠ slot.mailbox.generation :=
      fun hgen => hphase (hinv.seen.2 hgen).symm
    simp [Slot.standing, hpc, hgen]
  have hstanding : (slot.at (.enter slot.mailbox)).standing =
      if slot.mailbox.reuse then .ready else .reading := by
    simp [Slot.standing, Slot.at]
  refine hinv.advance _ ?_ ?_ ?_ rfl ?_ ?_ ?_
  · simp [hfresh, Standing.Before]
  · change (slot.at (.enter slot.mailbox)).standing.Before
    rw [hstanding]
    split <;> simp [Standing.Before]
  · simp [hfresh, Standing.Behind]
  · simp [WorkerPc.carried]
  · simp [Slot.PcOk]
  · intro hpos hword
    have hold : Synced program job slot.worker := by
      refine hinv.synced hpos (.inl ?_)
      rcases hword with hreuse | hready
      · exact hreuse
      · change ¬ (slot.at (.enter slot.mailbox)).standing.Behind at hready
        rw [hstanding] at hready
        by_contra hfull
        simp [hfull, Standing.Behind] at hready
    exact { hold with }

theorem SlotInv.carried_eq (hinv : SlotInv program pool job turn place slot)
    {mailbox : Mailbox} (hcarried : slot.worker.pc.carried = some mailbox)
    (hgen : mailbox.generation = slot.mailbox.generation) :
    mailbox.reuse = slot.mailbox.reuse ∧
      mailbox.skipClaim = slot.mailbox.skipClaim :=
  (MailboxWord.of_seenPhase ((hinv.carried _ hcarried).2 hgen)).2

/-- A worker of a reuse word has been synced with some job. -/
theorem SlotInv.synced_of_reuse
    (hinv : SlotInv program pool job turn place slot) {mailbox : Mailbox}
    (hpc : slot.worker.pc = .enter mailbox) (hreuse : mailbox.reuse = true) :
    ∃ old : Job, Synced program old slot.worker := by
  by_cases hgen : mailbox.generation = slot.mailbox.generation
  · have hword : slot.mailbox.reuse = true := by
      rw [← (hinv.carried_eq (by simp [hpc, WorkerPc.carried]) hgen).1]
      exact hreuse
    exact ⟨job, hinv.synced (Nat.zero_lt_of_lt (hinv.reuse hword))
      (.inl hword)⟩
  · have hok := hinv.pcOk
    simp only [Slot.PcOk, hpc] at hok
    obtain ⟨-, -, old, -, hsynced, -⟩ := hok hgen
    exact ⟨old, hsynced⟩

/-- Under the reuse bit the cached descriptor is taken and nothing is read. -/
theorem SlotInv.enter_reuse (hinv : SlotInv program pool job turn place slot)
    {mailbox : Mailbox} (hpc : slot.worker.pc = .enter mailbox)
    (hreuse : mailbox.reuse = true) :
    slot.worker.cachedDesc.isSome = true ∧
    slot.worker.enterEntry program mailbox = .claim mailbox ∧
    SlotInv program pool job turn place (slot.at (.claim mailbox)) := by
  obtain ⟨old, hold⟩ := hinv.synced_of_reuse hpc hreuse
  refine ⟨by simp [hold.cachedDesc], by
    simp [Worker.enterEntry, hreuse, hold.primed], ?_⟩
  have hcarried : slot.worker.pc.carried = some mailbox := by
    simp [hpc, WorkerPc.carried]
  have hstanding : (slot.at (.claim mailbox)).standing = slot.standing := by
    by_cases hgen : mailbox.generation = slot.mailbox.generation <;>
      simp [Slot.standing, Slot.at, hpc, hreuse, hgen]
  have hbefore : slot.standing.Before := by
    by_cases hgen : mailbox.generation = slot.mailbox.generation <;>
      simp [Slot.standing, hpc, hreuse, hgen, Standing.Before]
  refine hinv.advance _ hbefore (hstanding ▸ hbefore :) ?_ rfl ?_ ?_ ?_
  · intro hbehind
    exact hstanding ▸ hbehind
  · intro other hother
    obtain rfl : mailbox = other := by simpa [WorkerPc.carried] using hother
    exact hinv.carried mailbox hcarried
  · have hok := hinv.pcOk
    simp only [Slot.PcOk, hpc] at hok
    intro hlate
    obtain ⟨hbit, hclaimed, other, hpool, hsynced, hclaims⟩ := hok hlate
    exact ⟨hbit, hclaimed, other, hpool, { hsynced with }, hclaims⟩
  · intro hpos hword
    have hold : Synced program job slot.worker := by
      refine hinv.synced hpos (hword.imp_right ?_)
      intro hready hbehind
      exact hready (hstanding.symm ▸ hbehind)
    exact { hold with }

/-- Without the reuse bit the mailbox names the job's descriptor. -/
theorem SlotInv.enter_full (hinv : SlotInv program pool job turn place slot)
    {mailbox : Mailbox} (hpc : slot.worker.pc = .enter mailbox)
    (hfull : mailbox.reuse = false) :
    slot.standing = .reading ∧ slot.mailbox.reuse = false ∧
    slot.mailboxDesc = some (job.desc program) ∧
    SlotInv program pool job turn place
      (slot.at (.readEntry mailbox (job.desc program))) := by
  have hcarried : slot.worker.pc.carried = some mailbox := by
    simp [hpc, WorkerPc.carried]
  have hgen : mailbox.generation = slot.mailbox.generation := by
    by_contra hlate
    have hok := hinv.pcOk
    simp only [Slot.PcOk, hpc] at hok
    exact absurd (hok hlate).1 (by simp [hfull])
  have hword : slot.mailbox.reuse = false := by
    rw [← (hinv.carried_eq hcarried hgen).1]
    exact hfull
  have hreading : slot.standing = .reading := by
    simp [Slot.standing, hpc, hgen, hfull]
  refine ⟨hreading, hword,
    hinv.desc hword (by simp [hreading, Standing.Behind]), ?_⟩
  have hstanding : (slot.at (.readEntry mailbox (job.desc program))).standing =
      .reading := rfl
  refine hinv.advance _ ?_ ?_ ?_ rfl ?_ ⟨hgen, hfull, rfl⟩ ?_
  · simp [hreading, Standing.Before]
  · trivial
  · simp [hreading, Standing.Behind]
  · intro other hother
    obtain rfl : mailbox = other := by simpa [WorkerPc.carried] using hother
    exact hinv.carried mailbox hcarried
  · intro _ hword'
    rcases hword' with hreuse | hready
    · simp [hword] at hreuse
    · exact absurd trivial hready

/-- A worker in the middle of reading stays there. -/
theorem SlotInv.keep_reading (hinv : SlotInv program pool job turn place slot)
    {mailbox : Mailbox} (worker : Worker)
    (hreading : slot.standing = .reading)
    (hcarried : slot.worker.pc.carried = some mailbox)
    (hgen : mailbox.generation = slot.mailbox.generation)
    (hfull : mailbox.reuse = false)
    (hreading' : ({ slot with worker := worker } : Slot).standing = .reading)
    (hseen : worker.lastSeen = slot.worker.lastSeen)
    (hcarried' : worker.pc.carried = some mailbox)
    (hpcOk : ({ slot with worker := worker } : Slot).PcOk program pool job) :
    SlotInv program pool job turn place { slot with worker := worker } := by
  refine hinv.advance worker ?_ ?_ ?_ hseen ?_ hpcOk ?_
  · simp [hreading, Standing.Before]
  · simp [hreading', Standing.Before]
  · simp [hreading, Standing.Behind]
  · intro other hother
    obtain rfl : mailbox = other := by simpa [hcarried'] using hother
    exact hinv.carried mailbox hcarried
  · intro _ hword
    rcases hword with hreuse | hready
    · rw [← (hinv.carried_eq hcarried hgen).1, hfull] at hreuse
      simp at hreuse
    · simp [hreading', Standing.Behind] at hready

theorem SlotInv.readEntry (hinv : SlotInv program pool job turn place slot)
    {mailbox : Mailbox} {desc : DescId}
    (hpc : slot.worker.pc = .readEntry mailbox desc) :
    SlotInv program pool job turn place
      (slot.at (.readBase mailbox desc job.call.workerEntry)) := by
  have hok := hinv.pcOk
  simp only [Slot.PcOk, hpc] at hok
  obtain ⟨hgen, hfull, rfl⟩ := hok
  exact hinv.keep_reading _ (by simp [Slot.standing, hpc])
    (by simp [hpc, WorkerPc.carried]) hgen hfull rfl rfl rfl
    ⟨hgen, hfull, rfl, rfl⟩

/-- The locals are refreshed and the worker enters the entry it read. -/
theorem SlotInv.readBase (hinv : SlotInv program pool job turn place slot)
    {mailbox : Mailbox} {desc : DescId} {workerEntry : ℕ}
    (hpc : slot.worker.pc = .readBase mailbox desc workerEntry) :
    let refreshed : Worker :=
      { slot.worker with
        cachedDesc := some desc
        cachedWorkerEntry := workerEntry
        cachedColdCollapse :=
          job.call.value program .workerStateBase ≠ 0 }
    SlotInv program pool job turn place
      { slot with
        worker :=
          { refreshed with pc := refreshed.enterEntry program mailbox } } := by
  intro refreshed
  have hok := hinv.pcOk
  simp only [Slot.PcOk, hpc] at hok
  obtain ⟨hgen, hfull, rfl, rfl⟩ := hok
  have hentry : refreshed.enterEntry program mailbox =
      .copy mailbox (job.entry program).kind.copied := by
    simp only [Worker.enterEntry, hfull, Bool.false_and, Bool.false_eq_true,
      if_false]
    rfl
  have hhalf : HalfSynced program job (job.entry program).kind.copied
      { refreshed with pc := refreshed.enterEntry program mailbox } := by
    refine ⟨rfl, rfl, ?_, fun field hmem hout => absurd hmem hout⟩
    by_cases hfor : job.call.primitive program = .parallelFor <;>
      simp [refreshed, Call.value, hfor]
  rw [hentry] at hhalf ⊢
  exact hinv.keep_reading _ (by simp [Slot.standing, hpc])
    (by simp [hpc, WorkerPc.carried]) hgen hfull rfl rfl rfl
    ⟨hgen, hfull, hhalf, fun _ hmem => hmem⟩

theorem Worker.cache_copyField (worker : Worker) (field : Field) (value : ℕ) :
    (worker.copyField program field value).cache program =
      { worker.cache program with
        fields := Function.update (worker.cache program).fields field value } :=
  Function.update_self _ _ _

/-- A field is copied. -/
theorem SlotInv.copy (hinv : SlotInv program pool job turn place slot)
    {mailbox : Mailbox} {field : Field} {remaining : List Field}
    (hpc : slot.worker.pc = .copy mailbox (field :: remaining)) :
    SlotInv program pool job turn place
      { slot with
        worker :=
          { slot.worker.copyField program field
              (job.call.value program field) with
            pc := .copy mailbox remaining } } := by
  have hok := hinv.pcOk
  simp only [Slot.PcOk, hpc] at hok
  obtain ⟨hgen, hfull, hhalf, hremaining⟩ := hok
  refine hinv.keep_reading _ (by simp [Slot.standing, hpc])
    (by simp [hpc, WorkerPc.carried]) hgen hfull rfl rfl rfl
    ⟨hgen, hfull, ⟨hhalf.cachedDesc, hhalf.entry, hhalf.cold, ?_⟩,
      fun other hmem => hremaining other (List.mem_cons_of_mem _ hmem)⟩
  intro other hmem hout
  change ((slot.worker.copyField program field
    (job.call.value program field)).cache program).fields other = _
  rw [Worker.cache_copyField]
  by_cases hother : other = field
  · subst hother
    exact Function.update_self _ _ _
  · have hrest : other ∉ field :: remaining := by
      simp [hother, hout]
    simpa [hother] using hhalf.copied other hmem hrest

theorem Worker.cache_prime (worker : Worker) :
    (worker.prime program).cache program =
      { worker.cache program with primed := true } :=
  Function.update_self _ _ _

/-- The copy is complete. -/
theorem SlotInv.copied (hinv : SlotInv program pool job turn place slot)
    {mailbox : Mailbox} (hpc : slot.worker.pc = .copy mailbox []) :
    SlotInv program pool job turn place
      { slot with
        worker :=
          { slot.worker.prime program with pc := .claim mailbox } } := by
  have hok := hinv.pcOk
  simp only [Slot.PcOk, hpc] at hok
  obtain ⟨hgen, hfull, hhalf, -⟩ := hok
  have hsynced : Synced program job
      { slot.worker.prime program with pc := .claim mailbox } := by
    refine ⟨⟨hhalf.cachedDesc, hhalf.entry, hhalf.cold, ?_⟩, ?_⟩
    · intro field hmem hout
      change ((slot.worker.prime program).cache program).fields field = _
      rw [Worker.cache_prime]
      exact hhalf.copied field hmem hout
    · change ((slot.worker.prime program).cache program).primed = true
      rw [Worker.cache_prime]
  have hready : ({ slot with
      worker := { slot.worker.prime program with pc := .claim mailbox } } :
        Slot).standing = .ready := by
    simp [Slot.standing, hgen]
  refine hinv.advance _ ?_ ?_ ?_ rfl ?_ ?_ fun _ _ => hsynced
  · simp [Slot.standing, hpc, Standing.Before]
  · simp [hready, Standing.Before]
  · simp [hready, Standing.Behind]
  · intro other hother
    obtain rfl : mailbox = other := by simpa [WorkerPc.carried] using hother
    exact hinv.carried mailbox (by simp [hpc, WorkerPc.carried])
  · exact fun hlate => absurd hgen hlate

/-! ### The claim -/

/-- In front of its claim a worker carries the current word and is synced with
its job, or is late. -/
theorem SlotInv.claim_cases (hinv : SlotInv program pool job turn place slot)
    {mailbox : Mailbox} (hpc : slot.worker.pc = .claim mailbox) :
    (mailbox.generation = slot.mailbox.generation ∧
        slot.standing = .ready ∧
        (0 < slot.mailbox.generation → Synced program job slot.worker)) ∨
      (mailbox.generation ≠ slot.mailbox.generation ∧
        slot.standing = .fresh ∧ slot.Late program pool mailbox) := by
  have hok := hinv.pcOk
  simp only [Slot.PcOk, hpc] at hok
  by_cases hgen : mailbox.generation = slot.mailbox.generation
  · have hready : slot.standing = .ready := by
      simp [Slot.standing, hpc, hgen]
    exact .inl ⟨hgen, hready, fun hpos =>
      hinv.synced hpos (.inr (by simp [hready, Standing.Behind]))⟩
  · exact .inr ⟨hgen, by simp [Slot.standing, hpc, hgen], hok hgen⟩

theorem SlotInv.claims_eq (hinv : SlotInv program pool job turn place slot)
    {mailbox : Mailbox} (hpc : slot.worker.pc = .claim mailbox)
    (hpos : 0 < slot.mailbox.generation) :
    slot.worker.claims program mailbox = some pool ∨
      slot.worker.claims program mailbox = none ∧
        mailbox.generation = slot.mailbox.generation ∧
        ¬ job.Claims program slot.mailbox := by
  rcases hinv.claim_cases hpc with ⟨hgen, -, hsynced⟩ |
    ⟨-, -, -, -, old, hpool, hsynced, hclaims⟩
  · have hphase := (hinv.carried mailbox
      (by simp [hpc, WorkerPc.carried])).2 hgen
    rw [(hsynced hpos).claims, hinv.pool_eq, ← Job.claims_congr hphase]
    by_cases hclaims : job.Claims program mailbox <;> simp [hclaims, hgen]
  · rw [hsynced.claims, if_pos hclaims, hpool]
    exact .inl rfl

/-- The share begins on the worker, whose claim word may have moved. -/
theorem SlotInv.begin (hinv : SlotInv program pool job turn place slot)
    {mailbox : Mailbox} (hpc : slot.worker.pc = .claim mailbox)
    (hpos : 0 < slot.mailbox.generation)
    (hgen : mailbox.generation = slot.mailbox.generation)
    (hturn : turn = .opened) {claimedAt : ℕ}
    (hle : claimedAt ≤ slot.mailbox.generation)
    (hclaimed : job.Claims program slot.mailbox →
      claimedAt = slot.mailbox.generation) :
    SlotInv program pool job turn (some .entered)
      (({ slot with claimedAt := claimedAt } : Slot).at
        (.body mailbox .entered)) := by
  have hready : slot.standing = .ready := by
    simp [Slot.standing, hpc, hgen]
  have hsynced := hinv.synced hpos (.inr (by simp [hready, Standing.Behind]))
  have hnotDone : slot.mailbox.done = false := by
    by_contra hdone
    have := hinv.done (by simpa using hdone) (.inl hturn)
    simp [hready] at this
  have hrunning : (({ slot with claimedAt := claimedAt } : Slot).at
      (.body mailbox .entered)).standing = .running .entered := rfl
  exact {
    hinv with
    claimedAt_le := hle
    carried := fun other hother => by
      obtain rfl : mailbox = other := by
        simpa [Slot.at, WorkerPc.carried] using hother
      exact hinv.carried mailbox (by simp [hpc, WorkerPc.carried])
    pcOk := ⟨hgen, by simp⟩
    synced := fun _ _ => { hsynced with }
    unclaimed := fun hclaims hless =>
      absurd (hclaimed hclaims) (Nat.ne_of_lt hless)
    raced := fun _ hbefore => absurd hbefore (by simp [hrunning, Standing.Before])
    unraced := fun _ =>
      ⟨fun hbefore => absurd hbefore (by simp [hrunning, Standing.Before]),
        fun hclosed => by simp [hturn] at hclosed, .inl hturn⟩
    running := fun rankPc heq => by
      rw [hrunning] at heq
      obtain rfl : RankPc.entered = rankPc := by simpa using heq
      exact ⟨hturn, rfl, hnotDone⟩
    left := fun hleft => by simp [hrunning] at hleft
    done := fun hdone _ => by simp [Slot.at, hnotDone] at hdone
    acked := fun hfull hacked => by
      have := hinv.acked hfull hacked
      simp [hready] at this
    cold := fun hcold => by
      have := (hinv.cold hcold).1
      simp [hturn] at this
    uncovered := fun hclosed => by simp [hturn] at hclosed
    desc := fun _ hbehind =>
      absurd hbehind (by simp [hrunning, Standing.Behind]) }

/-- Without a claim the share begins at once. -/
theorem SlotInv.claim_none (hinv : SlotInv program pool job turn place slot)
    {mailbox : Mailbox} (hpc : slot.worker.pc = .claim mailbox)
    (hpos : 0 < slot.mailbox.generation)
    (hnone : slot.worker.claims program mailbox = none) :
    mailbox.generation = slot.mailbox.generation ∧
    Synced program job slot.worker ∧ turn = .opened ∧ place = none ∧
    SlotInv program pool job turn (some .entered)
      (slot.at (.body mailbox .entered)) := by
  rcases hinv.claims_eq hpc hpos with hsome | ⟨-, hgen, hclaims⟩
  · simp [hnone] at hsome
  have hready : slot.standing = .ready := by
    simp [Slot.standing, hpc, hgen]
  obtain ⟨hturn, hplace⟩ := (hinv.unraced hclaims).1
    (by simp [hready, Standing.Before])
  exact ⟨hgen, hinv.synced hpos (.inr (by simp [hready, Standing.Behind])),
    hturn, hplace, hinv.begin hpc hpos hgen hturn hinv.claimedAt_le
      fun h => absurd h hclaims⟩

/-- A claim that is won begins the share. -/
theorem SlotInv.claim_won (hinv : SlotInv program pool job turn place slot)
    {mailbox : Mailbox} (hpc : slot.worker.pc = .claim mailbox)
    (hpos : 0 < slot.mailbox.generation) {target : ℕ}
    (hsome : slot.worker.claims program mailbox = some target)
    (hwon : slot.claimedAt < mailbox.generation) :
    mailbox.generation = slot.mailbox.generation ∧
    Synced program job slot.worker ∧ turn = .opened ∧ place = none ∧
    SlotInv program pool job turn (some .entered)
      (({ slot with claimedAt := mailbox.generation } : Slot).at
        (.body mailbox .entered)) := by
  rcases hinv.claim_cases hpc with ⟨hgen, hready, hsynced⟩ |
    ⟨-, -, -, hclaimed, -⟩
  · have hphase := (hinv.carried mailbox
      (by simp [hpc, WorkerPc.carried])).2 hgen
    have hclaims : job.Claims program slot.mailbox :=
      (Job.claims_congr hphase).1 ((hsynced hpos).of_claims hsome)
    obtain ⟨hturn, hplace, -⟩ := hinv.unclaimed hclaims (hgen ▸ hwon)
    exact ⟨hgen, hsynced hpos, hturn, hplace,
      hinv.begin hpc hpos hgen hturn hgen.le fun _ => hgen⟩
  · omega

/-- A claim that is lost goes on to the stamp. -/
theorem SlotInv.claim_lost (hinv : SlotInv program pool job turn place slot)
    {mailbox : Mailbox} (hpc : slot.worker.pc = .claim mailbox)
    (hpos : 0 < slot.mailbox.generation) {target : ℕ}
    (hsome : slot.worker.claims program mailbox = some target)
    (hlost : ¬ slot.claimedAt < mailbox.generation) :
    SlotInv program pool job turn place (slot.at (.stamp mailbox
      (slot.worker.coldCollapseDispatch mailbox))) := by
  have hcarried : slot.worker.pc.carried = some mailbox := by
    simp [hpc, WorkerPc.carried]
  rcases hinv.claim_cases hpc with ⟨hgen, hready, hsynced⟩ |
    ⟨hgen, hfresh, hlate⟩
  · have hphase := (hinv.carried mailbox hcarried).2 hgen
    have hclaims : job.Claims program slot.mailbox :=
      (Job.claims_congr hphase).1 ((hsynced hpos).of_claims hsome)
    have hbefore : slot.standing.Before := by
      simp [hready, Standing.Before]
    have hturn := hinv.raced hclaims hbefore (by omega)
    have hleaving : (slot.at (.stamp mailbox
        (slot.worker.coldCollapseDispatch mailbox))).standing = .leaving := by
      simp [Slot.standing, Slot.at, hgen]
    exact {
      hinv with
      carried := fun other hother => by
        obtain rfl : mailbox = other := by
          simpa [Slot.at, WorkerPc.carried] using hother
        exact hinv.carried mailbox hcarried
      pcOk := by
        simp only [Slot.PcOk, Slot.at, hgen, if_true]
        exact (hsynced hpos).coldCollapseDispatch mailbox
      synced := fun _ _ => { hsynced hpos with }
      unclaimed := fun _ hless => by
        have hgood : slot.claimedAt < slot.mailbox.generation := hless
        omega
      raced := fun _ hstanding =>
        absurd hstanding (by simp [hleaving, Standing.Before])
      unraced := fun hnot => absurd hclaims hnot
      running := fun rankPc heq => by simp [hleaving] at heq
      left := fun _ hopen => absurd hopen hturn
      done := fun hdone hopen => by
        have := hinv.done hdone hopen
        simp [hready] at this
      acked := fun hfull hacked => by
        have := hinv.acked hfull hacked
        simp [hready] at this
      uncovered := fun hclosed hfull _ =>
        hinv.uncovered hclosed hfull (by simp [hready])
      desc := fun _ hbehind =>
        absurd hbehind (by simp [hleaving, Standing.Behind]) }
  · obtain ⟨hbit, hclaimed, old, hpool, hold, hclaims⟩ := hlate
    have hfresh' : (slot.at (.stamp mailbox
        (slot.worker.coldCollapseDispatch mailbox))).standing = .fresh := by
      simp [Slot.standing, Slot.at, hgen]
    refine hinv.advance _ ?_ ?_ ?_ rfl ?_ ?_ ?_
    · simp [hfresh, Standing.Before]
    · exact hfresh' ▸ trivial
    · simp [hfresh, Standing.Behind]
    · intro other hother
      obtain rfl : mailbox = other := by
        simpa [WorkerPc.carried] using hother
      exact hinv.carried mailbox hcarried
    · simp only [Slot.PcOk, hgen, if_false]
      refine ⟨⟨hbit, hclaimed, old, hpool, { hold with }, hclaims⟩, ?_⟩
      rw [hold.coldCollapseDispatch]
      simpa using hclaims
    · intro hpos' hword
      have hjob := hinv.synced hpos' (hword.imp_right fun hnot hbehind =>
        hnot (hfresh' ▸ hfresh ▸ hbehind))
      exact { hjob with }

/-! ### The share, the stamp and the acknowledgement -/

/-- In its share a worker carries the current word, synced with its job. -/
theorem SlotInv.in_body (hinv : SlotInv program pool job turn place slot)
    {mailbox : Mailbox} {rankPc : RankPc}
    (hpc : slot.worker.pc = .body mailbox rankPc)
    (hpos : 0 < slot.mailbox.generation) :
    mailbox.generation = slot.mailbox.generation ∧
    Synced program job slot.worker ∧ turn = .opened ∧
    place = some rankPc := by
  have hrunning : slot.standing = .running rankPc := by
    simp [Slot.standing, hpc]
  have hok := hinv.pcOk
  simp only [Slot.PcOk, hpc] at hok
  obtain ⟨hturn, hplace, -⟩ := hinv.running rankPc hrunning
  exact ⟨hok.1, hinv.synced hpos (.inr (by simp [hrunning, Standing.Behind])),
    hturn, hplace⟩

/-- The worker moves on in its share, or to the end of it. -/
theorem SlotInv.move (hinv : SlotInv program pool job turn place slot)
    {mailbox : Mailbox} {rankPc : RankPc}
    (hpc : slot.worker.pc = .body mailbox rankPc)
    (hpos : 0 < slot.mailbox.generation) (next : RankPc) :
    SlotInv program pool job turn (some next) (slot.placeAt mailbox next) := by
  obtain ⟨hgen, hsynced, hturn, hplace⟩ := hinv.in_body hpc hpos
  have hcarried := hinv.carried mailbox (by simp [hpc, WorkerPc.carried])
  have hrunning : slot.standing = .running rankPc := by
    simp [Slot.standing, hpc]
  have hnotDone := (hinv.running rankPc hrunning).2.2
  have hword : (slot.placeAt mailbox next).mailbox = slot.mailbox := by
    unfold Slot.placeAt
    split <;> rfl
  have hstanding : (slot.placeAt mailbox next).standing =
      if next = .returned then .leaving else .running next := by
    unfold Slot.placeAt
    split <;> simp [Slot.standing, Slot.at, hgen]
  have hnotBefore : ¬ (slot.placeAt mailbox next).standing.Before := by
    rw [hstanding]
    split <;> simp [Standing.Before]
  have hclaimed : job.Claims program slot.mailbox →
      slot.claimedAt = slot.mailbox.generation := by
    intro hclaims
    refine le_antisymm hinv.claimedAt_le (Nat.le_of_not_lt fun hless => ?_)
    have := (hinv.unclaimed hclaims hless).2.2
    simp [hrunning, Standing.Before] at this
  have hsame : (slot.placeAt mailbox next).claimedAt = slot.claimedAt ∧
      (slot.placeAt mailbox next).coldStamped = slot.coldStamped ∧
      (slot.placeAt mailbox next).worker.lastSeen = slot.worker.lastSeen := by
    unfold Slot.placeAt
    split <;> exact ⟨rfl, rfl, rfl⟩
  refine ⟨hinv.pool_eq, ?_, ?_, ?_, ?_, ?_, ?_, ?_, ?_, ?_, ?_, ?_, ?_, ?_, ?_,
    ?_, ?_, ?_⟩
  · rw [hword]; exact hinv.full
  · rw [hword]; exact hinv.reuse
  · rw [hword, hsame.1]; exact hinv.claimedAt_le
  · rw [hword, hsame.2.2]; exact hinv.seen
  · intro other hother
    obtain rfl : mailbox = other := by
      unfold Slot.placeAt at hother
      split at hother <;> simpa [Slot.at, WorkerPc.carried] using hother
    rw [hword]
    exact hcarried
  · unfold Slot.placeAt
    split
    · simp only [Slot.PcOk, Slot.at, hgen, if_true]
      exact hsynced.coldCollapseDispatch mailbox
    next hnext => exact ⟨hgen, hnext⟩
  · intro _ _
    unfold Slot.placeAt
    split <;> exact { hsynced with }
  · rw [hword, hsame.1]
    intro hclaims hless
    exact absurd (hclaimed hclaims) (Nat.ne_of_lt hless)
  · exact fun _ hbefore => absurd hbefore hnotBefore
  · rw [hword]
    exact fun _ => ⟨fun hbefore => absurd hbefore hnotBefore,
      fun hclosed => by simp [hturn] at hclosed, .inl hturn⟩
  · intro other hother
    rw [hstanding] at hother
    split at hother
    · simp at hother
    · obtain rfl : next = other := by simpa using hother
      exact ⟨hturn, rfl, hword ▸ hnotDone⟩
  · intro hleft _
    rw [hstanding] at hleft
    split at hleft
    next hnext => rw [hnext]
    next => simp at hleft
  · rw [hword]
    exact fun hdone => by simp [hnotDone] at hdone
  · rw [hword]
    intro hfull hacked
    have := hinv.acked hfull hacked
    simp [hrunning] at this
  · rw [hsame.2.1]
    intro hcold
    have := (hinv.cold hcold).1
    simp [hturn] at this
  · exact fun hclosed => by simp [hturn] at hclosed
  · intro _ hbehind
    rw [hstanding] at hbehind
    split at hbehind <;> simp [Standing.Behind] at hbehind

/-- In front of its stamp a worker carries the current word, and compares it
where the job claims, or is late. -/
theorem SlotInv.stamp_cases (hinv : SlotInv program pool job turn place slot)
    {mailbox : Mailbox} {coldCollapseDispatch : Bool}
    (hpc : slot.worker.pc = .stamp mailbox coldCollapseDispatch) :
    (mailbox.generation = slot.mailbox.generation ∧
        slot.standing = .leaving ∧
        coldCollapseDispatch = decide (job.Claims program mailbox)) ∨
      (mailbox.generation ≠ slot.mailbox.generation ∧
        slot.standing = .fresh ∧ slot.Late program pool mailbox ∧
        coldCollapseDispatch = true) := by
  have hok := hinv.pcOk
  unfold Slot.PcOk at hok
  rw [hpc] at hok
  dsimp only at hok
  by_cases hgen : mailbox.generation = slot.mailbox.generation
  · rw [if_pos hgen] at hok
    exact .inl ⟨hgen, by simp [Slot.standing, hpc, hgen], hok⟩
  · rw [if_neg hgen] at hok
    exact .inr ⟨hgen, by simp [Slot.standing, hpc, hgen], hok.1, hok.2⟩

/-- A late worker's stamp fails and it goes on to acknowledge; so does one
whose word the producer has stamped. -/
theorem SlotInv.stamp_lost (hinv : SlotInv program pool job turn place slot)
    {mailbox : Mailbox}
    (hpc : slot.worker.pc = .stamp mailbox true) :
    SlotInv program pool job turn place (slot.at (.acknowledge mailbox)) := by
  have hcarried := hinv.carried mailbox (by simp [hpc, WorkerPc.carried])
  have hcases := hinv.stamp_cases hpc
  have hstanding : (slot.at (.acknowledge mailbox)).standing =
      slot.standing := by
    by_cases hgen : mailbox.generation = slot.mailbox.generation <;>
      simp [Slot.standing, Slot.at, hpc, hgen]
  refine { hinv with
    carried := ?_, pcOk := ?_, synced := ?_, unclaimed := ?_, raced := ?_,
    unraced := ?_, running := ?_, left := ?_, done := ?_, acked := ?_,
    uncovered := ?_, desc := ?_ }
  · intro other hother
    obtain rfl : mailbox = other := by
      simpa [Slot.at, WorkerPc.carried] using hother
    exact hcarried
  · intro hlate
    rcases hcases with ⟨hgen, -⟩ |
      ⟨-, -, ⟨hbit, hclaimed, old, hpool, hsynced, hclaims⟩, -⟩
    · exact absurd hgen hlate
    · exact ⟨hbit, hclaimed, old, hpool, { hsynced with }, hclaims⟩
  · rw [hstanding]
    exact fun hpos hword => { hinv.synced hpos hword with }
  · rw [hstanding]; exact hinv.unclaimed
  · rw [hstanding]; exact hinv.raced
  · rw [hstanding]; exact hinv.unraced
  · rw [hstanding]; exact hinv.running
  · rw [hstanding]; exact hinv.left
  · rw [hstanding]; exact hinv.done
  · rw [hstanding]; exact hinv.acked
  · rw [hstanding]; exact hinv.uncovered
  · rw [hstanding]; exact hinv.desc

/-- A worker behind its share of the current word finishes: the word keeps its
phase, and is not stamped while the producer covers the slot. -/
theorem SlotInv.finish (hinv : SlotInv program pool job turn place slot)
    {mailbox word : Mailbox} (hleaving : slot.standing = .leaving)
    (hcarried : slot.worker.pc.carried = some mailbox)
    (hgen : mailbox.generation = slot.mailbox.generation)
    (hword : word.seenPhase = slot.mailbox.seenPhase) {lastSeen : Mailbox}
    (hseen : lastSeen.seenPhase = mailbox.seenPhase) :
    SlotInv program pool job turn place
      { slot with
        mailbox := word
        worker := { slot.worker with pc := .load, lastSeen := lastSeen } } := by
  obtain ⟨hwordGen, hwordReuse, hwordSkip⟩ := MailboxWord.of_seenPhase hword
  have hphase := (hinv.carried mailbox hcarried).2 hgen
  have hseenGen : lastSeen.generation = word.generation := by
    rw [(MailboxWord.of_seenPhase hseen).1, hgen, hwordGen]
  have hfinished : ({ slot with
      mailbox := word
      worker := { slot.worker with pc := .load, lastSeen := lastSeen } } :
        Slot).standing = .finished := by
    simp [Slot.standing, hseenGen]
  refine ⟨hinv.pool_eq, ?_, ?_, ?_, ?_, ?_, trivial, ?_, ?_, ?_, ?_, ?_, ?_,
    ?_, ?_, ?_, ?_, ?_⟩
  · simpa only [hwordReuse, hwordGen] using hinv.full
  · simpa only [hwordReuse, hwordGen] using hinv.reuse
  · simpa only [hwordGen] using hinv.claimedAt_le
  · exact ⟨hseenGen.le, fun _ => hseen.trans (hphase.trans hword.symm)⟩
  · simp [WorkerPc.carried]
  · intro hpos _
    have hold := hinv.synced (by simpa [hwordGen] using hpos)
      (.inr (by simp [hleaving, Standing.Behind]))
    exact { hold with }
  · intro hclaims hless
    have := hinv.unclaimed ((Job.claims_congr hword).1 hclaims)
      (by simpa [hwordGen] using hless)
    simp [hleaving, Standing.Before] at this
  · simp [hfinished, Standing.Before]
  · intro hclaims
    have hturn := (hinv.unraced fun h =>
      hclaims ((Job.claims_congr hword).2 h)).2.2
    exact ⟨by simp [hfinished, Standing.Before], fun _ => hfinished, hturn⟩
  · simp [hfinished]
  · intro _ hturn
    exact hinv.left (.inl hleaving) hturn
  · exact fun _ _ => hfinished
  · exact fun _ _ => hfinished
  · intro hcold
    obtain ⟨hturn, hfull, hclaims⟩ := hinv.cold hcold
    exact ⟨hturn, by simpa [hwordReuse] using hfull,
      (Job.claims_congr hword).2 hclaims⟩
  · simp [hfinished]
  · simp [hfinished, Standing.Behind]

/-- A late acknowledgement on a reuse word changes nothing else. -/
theorem SlotInv.acknowledge_late
    (hinv : SlotInv program pool job turn place slot) {mailbox : Mailbox}
    (hpc : slot.worker.pc = .acknowledge mailbox)
    (hgen : mailbox.generation ≠ slot.mailbox.generation)
    (hreuse : slot.mailbox.reuse = true) :
    SlotInv program pool job turn place
      { slot with
        mailbox := slot.mailbox.withAck
        worker :=
          { slot.worker with pc := .load, lastSeen := mailbox.doneAcked } } := by
  have hless := (hinv.carried mailbox (by simp [hpc, WorkerPc.carried])).1
  have hold : slot.standing = .fresh := by
    simp [Slot.standing, hpc, hgen]
  have hfresh : ({ slot with
      mailbox := slot.mailbox.withAck
      worker :=
        { slot.worker with pc := .load, lastSeen := mailbox.doneAcked } } :
          Slot).standing = .fresh := by
    simp [Slot.standing, MailboxWord.withAck, MailboxWord.doneAcked, hgen]
  refine ⟨hinv.pool_eq, hinv.full, hinv.reuse, hinv.claimedAt_le,
    ⟨hless, fun heq => absurd heq hgen⟩, ?_, trivial, ?_, ?_, ?_, ?_, ?_, ?_,
    ?_, ?_, hinv.cold, ?_, ?_⟩
  · simp [WorkerPc.carried]
  · intro hpos _
    have hsynced := hinv.synced hpos (.inl hreuse)
    exact { hsynced with }
  · intro hclaims hclaimed
    have := hinv.unclaimed hclaims hclaimed
    exact ⟨this.1, this.2.1, by simp [hfresh, Standing.Before]⟩
  · intro hclaims _ hge
    exact hinv.raced hclaims (by simp [hold, Standing.Before]) hge
  · intro hclaims
    obtain ⟨hopen, hclosed, hturn⟩ := hinv.unraced hclaims
    refine ⟨fun _ => hopen (by simp [hold, Standing.Before]), fun hturn => ?_,
      hturn⟩
    have := hclosed hturn
    simp [hold] at this
  · simp [hfresh]
  · simp [hfresh]
  · intro hdone hturn
    have := hinv.done hdone hturn
    simp [hold] at this
  · intro hfull
    simp [MailboxWord.withAck, hreuse] at hfull
  · intro _ hfull
    simp [MailboxWord.withAck, hreuse] at hfull
  · intro hfull
    simp [MailboxWord.withAck, hreuse] at hfull

end WorkerSteps

end Citor.JobCaches
