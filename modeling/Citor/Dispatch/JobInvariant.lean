import Citor.Dispatch.JobLedger
import Citor.Dispatch.JobTurns

/-!
# The invariant of the job machine

Every slot is as its turn says.  A worker that may still read a descriptor
finds in it the job it was published with.  A descriptor nobody is writing holds
the parameters of the last call that filled it, and where its pool published it
last, the workers' job is that call's.  The books of the dispatch that is open
count every rank's share.
-/

namespace Citor.JobCaches

open BlockRunners (RankPc)
open WorkerSlots (Dispatch)

/-! ## Jobs and fields -/

section Fields

variable (program : Program)

/-- The fields a call leaves as it wants them. -/
def Call.written (call : Call) : List Field :=
  call.guarded program ++ [.chunk, .blockCount]

/-- The fields are what the call wants. -/
def Filled (call : Call) (fields : Fields) : Prop :=
  ∀ field ∈ call.written program, fields field = call.value program field

/-- Two calls are the same job to a worker. -/
structure SameJob (left right : Call) : Prop where
  desc : left.desc program = right.desc program
  workerEntry : left.workerEntry = right.workerEntry
  values : ∀ field ∈ (left.entry program).kind.copied,
    left.value program field = right.value program field

variable {program} {call left right : Call}

theorem mem_guarded {field : Field}
    (hfield : field ∈ [Field.first, .last, .participants, .fnPtr, .workerEntry,
      .workerStateBase]) : field ∈ call.guarded program := by
  have hguarded : [Field.first, .last, .participants, .fnPtr, .workerEntry,
      .workerStateBase] ⊆ call.guarded program := by
    rcases hkind : (call.entry program).kind with ⟨_ | _⟩ | _ <;>
      simp [Call.guarded, hkind]
  exact hguarded hfield

theorem mem_written {field : Field}
    (hfield : field ∈ [Field.workerEntry, .workerStateBase, .blockCount,
      .participants, .chunk, .first, .last, .fnPtr]) :
    field ∈ call.written program := by
  have hsplit : field ∈ [Field.first, .last, .participants, .fnPtr,
      .workerEntry, .workerStateBase] ∨ field ∈ [Field.chunk, .blockCount] := by
    simp only [List.mem_cons, List.not_mem_nil, or_false] at hfield ⊢
    tauto
  rcases hsplit with hkey | hshape
  · exact List.mem_append_left _ (mem_guarded hkey)
  · exact List.mem_append_right _ hshape

theorem copied_subset (kind : EntryKind) {field : Field}
    (hfield : field ∈ kind.copied) :
    field ∈ [Field.workerEntry, .workerStateBase, .blockCount,
      .participants, .chunk, .first, .last, .fnPtr] := by
  cases kind <;> simp only [EntryKind.copied, List.mem_cons] at hfield ⊢ <;>
    tauto

theorem SameJob.refl (call : Call) : SameJob program call call :=
  ⟨rfl, rfl, fun _ _ => rfl⟩

theorem SameJob.entry (hsame : SameJob program left right) :
    left.entry program = right.entry program := by
  simp [Call.entry, hsame.workerEntry]

/-- Two calls that fill one descriptor alike are the same job. -/
theorem SameJob.of_filled {fields : Fields} (hleft : Filled program left fields)
    (hright : Filled program right fields)
    (hdesc : left.desc program = right.desc program) :
    SameJob program left right := by
  have hvalues : ∀ field ∈ [Field.workerEntry, .workerStateBase, .blockCount,
      .participants, .chunk, .first, .last, .fnPtr],
      left.value program field = right.value program field := by
    intro field hfield
    rw [← hleft field (mem_written hfield),
      ← hright field (mem_written hfield)]
  exact ⟨hdesc, hvalues .workerEntry (by simp),
    fun field hfield => hvalues field (copied_subset _ hfield)⟩

theorem SameJob.trans {middle : Call} (hleft : SameJob program left middle)
    (hright : SameJob program middle right) : SameJob program left right := by
  refine ⟨hleft.desc.trans hright.desc,
    hleft.workerEntry.trans hright.workerEntry, fun field hfield => ?_⟩
  rw [hleft.values field hfield]
  exact hright.values field (hleft.entry ▸ hfield)

theorem SameJob.params (hsame : SameJob program left right) :
    left.params program = right.params program := by
  have hvalue : ∀ field ∈ EntryKind.copied .contiguous,
      left.value program field = right.value program field := by
    intro field hfield
    refine hsame.values field ?_
    cases (left.entry program).kind
    · simp only [EntryKind.copied, List.mem_cons] at hfield ⊢
      tauto
    · exact hfield
  simp only [Call.params, Fields.params, hsame.workerEntry]
  rw [hvalue .fnPtr (by simp [EntryKind.copied]),
    hvalue .first (by simp [EntryKind.copied]),
    hvalue .last (by simp [EntryKind.copied]),
    hvalue .chunk (by simp [EntryKind.copied]),
    hvalue .blockCount (by simp [EntryKind.copied]),
    hvalue .participants (by simp [EntryKind.copied])]

end Fields

/-! ## What the producer's counter says -/

/-- The dispatch that has taken its generation. -/
def ProducerPc.active : ProducerPc → Option (Call × Dispatch)
  | .drain call dispatch | .publishDesc call dispatch _
  | .publish call dispatch _ | .record call dispatch
  | .enterSlot0 call dispatch | .slot0 call dispatch _
  | .join call dispatch _ | .cover call dispatch _ _
  | .coverStamp call dispatch _ | .coverMark call dispatch _ =>
      some (call, dispatch)
  | .idle | .entryDrain _ | .fill _ _ _ | .shape _ _ _ | .counter _ _
  | .begin _ _ => none

/-- The turn of a slot in the producer's pool. -/
def ProducerPc.ownTurn (slot : ℕ) : ProducerPc → Turn
  | .publishDesc _ _ next | .publish _ _ next =>
      if slot < next then .opened else .closed
  | .record _ _ | .enterSlot0 _ _ | .slot0 _ _ _ => .opened
  | .join _ _ next => if slot < next then .closed else .opened
  | .cover _ _ next _ | .coverStamp _ _ next =>
      if slot < next then .closed else if slot = next then .covered
      else .opened
  | .coverMark _ _ next =>
      if slot < next then .closed else if slot = next then .marking
      else .opened
  | .idle | .entryDrain _ | .fill _ _ _ | .shape _ _ _ | .counter _ _
  | .begin _ _ | .drain _ _ => .closed

/-- The pool of the dispatch. -/
def ProducerPc.pool (pc : ProducerPc) : Option ℕ :=
  pc.active.map fun (call, _) => call.pool

/-- What the producer does with a slot. -/
def ProducerPc.turn (pc : ProducerPc) (pool slot : ℕ) : Turn :=
  if pc.pool = some pool then pc.ownTurn slot else .closed

/-- The full publication on a slot that `published` does not know yet. -/
def ProducerPc.newJob (slot : ℕ) : ProducerPc → Option Job
  | .publishDesc call dispatch next | .publish call dispatch next =>
      if dispatch.reuseSafe = false ∧ slot < next then
        some ⟨dispatch.generation, call⟩
      else none
  | .record call dispatch => some ⟨dispatch.generation, call⟩
  | _ => none

/-- The last full publication on a slot. -/
def State.job (state : State) (pool slot : ℕ) : Job :=
  if state.producer.pool = some pool then
    (state.producer.newJob slot).getD (state.published pool)
  else state.published pool

/-- The descriptor that is being written, or published in full. -/
def ProducerPc.writes (program : Program) : ProducerPc → Option DescId
  | .fill call _ _ | .shape call _ _ | .counter call _ | .begin call _ =>
      some (call.desc program)
  | .drain call dispatch | .publishDesc call dispatch _
  | .publish call dispatch _ | .record call dispatch =>
      if dispatch.reuseSafe then none else some (call.desc program)
  | _ => none

/-! ## The parts of the invariant -/

/-- The worker may still read the descriptor its word was published with. -/
def Slot.Reader (slot : Slot) : Prop :=
  slot.mailbox.reuse = false ∧ slot.standing.Behind

section Parts

variable (program : Program)

def SlotsOk (ranks : ℕ → Option RankPc) (state : State) : Prop :=
  ∀ pool slot, program.HasWorker pool slot →
    SlotInv program pool (state.job pool slot)
      (state.producer.turn pool slot) (ranks slot) (state.slots (pool, slot))

/-- The words are no younger than their pool, and those of the open dispatch
are its own. -/
structure WordsOk (state : State) : Prop where
  old : ∀ pool slot, program.HasWorker pool slot →
    (state.slots (pool, slot)).mailbox.generation ≤
      (state.pools pool).generation
  idle : ∀ pool slot, program.HasWorker pool slot →
    (state.slots (pool, slot)).mailbox.generation = 0 →
    (state.slots (pool, slot)).worker.pc = .load
  current : ∀ call dispatch slot,
    state.producer.active = some (call, dispatch) →
    program.HasWorker call.pool slot →
    state.producer.turn call.pool slot ≠ .closed →
    (state.slots (call.pool, slot)).mailbox.seenPhase = dispatch.publishedMb

/-- A worker that may still read finds its job in the descriptor. -/
def ReadersOk (state : State) : Prop :=
  ∀ pool slot, program.HasWorker pool slot →
    (state.slots (pool, slot)).Reader →
    Filled program (state.job pool slot).call
      (state.descs ((state.job pool slot).desc program)).fields

/-- A descriptor is untouched, or holds the parameters of the last call that
filled it; where that call's pool published it last, its workers' job is the
call's. -/
def DescInv (state : State) (desc : DescId) : Prop :=
  (state.descs desc).fields .workerEntry = 0 ∨
  ∃ call : Call, call.desc program = desc ∧
    Filled program call (state.descs desc).fields ∧
    state.filledFor desc = some call.pool ∧
    ((state.pools call.pool).lastPublishedDesc = some desc →
      (call.primitive program = .parallelFor →
        1 < (call.shape program).blockCount) →
      SameJob program (state.published call.pool).call call)

def DescsOk (state : State) : Prop :=
  ∀ desc, state.producer.writes program ≠ some desc →
    DescInv program state desc

/-- What is on record of the pools' last full publications. -/
def PoolsOk (state : State) : Prop :=
  ∀ pool desc, (state.pools pool).lastPublishedDesc = some desc →
    0 < (state.published pool).generation ∧
    (state.published pool).call.desc program = desc

/-- No worker may still read the descriptor. -/
def Unread (state : State) (desc : DescId) : Prop :=
  ∀ pool slot, program.HasWorker pool slot →
    (state.slots (pool, slot)).Reader →
    (state.job pool slot).desc program ≠ desc

/-- The call's own pool filled the descriptor last, where that decides about a
reuse publication of the reducer. -/
def HomeOk (state : State) (call : Call) (remaining : List Field) : Prop :=
  call.primitive program = .parallelReduce →
  (state.pools call.pool).lastPublishedDesc = some (call.desc program) →
  (∀ field ∈ remaining, (state.descs (call.desc program)).fields field =
    call.value program field) →
  state.filledFor (call.desc program) = some call.pool

/-- The counter of a dispatch with more dynamic blocks than ranks. -/
def CounterOk (state : State) (call : Call) : Prop :=
  (call.entry program).kind = .typed .dynamicChunked →
  call.participants program < (call.shape program).blockCount →
  (state.descs (call.desc program)).nextBlock = call.participants program

/-- A `parallelFor` that is dispatched has two blocks at least. -/
def Call.Shared (call : Call) : Prop :=
  call.primitive program = .parallelFor → 1 < (call.shape program).blockCount

/-- The producer while it prepares its descriptor. -/
def PreparesOk (state : State) : ProducerPc → Prop
  | .entryDrain call =>
      call.Admissible program ∧ call.primitive program = .parallelFor
  | .fill call remaining keyMatches =>
      let desc := call.desc program
      call.Admissible program ∧ Unread program state desc ∧
      (∃ written, call.guarded program = written ++ remaining ∧
        ∀ field ∈ written,
          (state.descs desc).fields field = call.value program field) ∧
      (keyMatches = true → DescInv program state desc ∧
        HomeOk program state call remaining)
  | .shape call remaining keyMatches =>
      let desc := call.desc program
      call.Admissible program ∧ call.primitive program = .parallelFor ∧
      Unread program state desc ∧
      (∃ written, call.written program = written ++ remaining ∧
        (∀ field ∈ call.guarded program, field ∈ written) ∧
        ∀ field ∈ written,
          (state.descs desc).fields field = call.value program field) ∧
      (keyMatches = true → DescInv program state desc)
  | .counter call keyMatches =>
      let desc := call.desc program
      call.Admissible program ∧ call.primitive program = .parallelFor ∧
      Filled program call (state.descs desc).fields ∧
      (keyMatches = true → DescInv program state desc)
  | .begin call reuseHint =>
      let desc := call.desc program
      call.Admissible program ∧
      Filled program call (state.descs desc).fields ∧
      call.Shared program ∧ CounterOk program state call ∧
      (reuseHint = true → DescInv program state desc ∧
        HomeOk program state call [])
  | _ => True

/-- The open dispatch: its descriptor is its call's, and under the reuse bit
the workers' job is as well. -/
structure ActiveOk (state : State) (call : Call) (dispatch : Dispatch) :
    Prop where
  admissible : call.Admissible program
  filled : Filled program call (state.descs (call.desc program)).fields
  shared : call.Shared program
  home : state.filledFor (call.desc program) = some call.pool
  positive : 0 < dispatch.generation
  generation : dispatch.generation = (state.pools call.pool).generation
  reuse : dispatch.reuseSafe = true →
    (state.pools call.pool).lastPublishedDesc = some (call.desc program) ∧
    SameJob program (state.published call.pool).call call

/-- The slots from `next` on are ready to be published. -/
def Unpublished (state : State) (call : Call) (dispatch : Dispatch)
    (next : ℕ) : Prop :=
  ∀ slot, next ≤ slot → program.HasWorker call.pool slot →
    (state.slots (call.pool, slot)).mailbox.generation <
      dispatch.generation ∧
    (state.slots (call.pool, slot)).coldStamped = false

/-- The producer's place in the open dispatch. -/
def StageOk (ranks : ℕ → Option RankPc) (state : State) : ProducerPc → Prop
  | .drain call dispatch =>
      (∀ slot, program.HasWorker call.pool slot →
        (state.slots (call.pool, slot)).mailbox.generation <
          dispatch.generation) ∧ ∀ rank, ranks rank = none
  | .publishDesc call dispatch next =>
      0 < next ∧ next < call.participants program ∧
      dispatch.reuseSafe = false ∧
      Unpublished program state call dispatch next ∧
      ranks 0 = none ∧ ∀ slot, next ≤ slot → ranks slot = none
  | .publish call dispatch next =>
      0 < next ∧ next < call.participants program ∧
      Unpublished program state call dispatch next ∧
      (dispatch.reuseSafe = false →
        (state.slots (call.pool, next)).mailboxDesc =
          some (call.desc program)) ∧
      ranks 0 = none ∧ ∀ slot, next ≤ slot → ranks slot = none
  | .record _ dispatch => dispatch.reuseSafe = false ∧ ranks 0 = none
  | .enterSlot0 call _ =>
      SameJob program (state.published call.pool).call call ∧ ranks 0 = none
  | .slot0 call _ place =>
      SameJob program (state.published call.pool).call call ∧
      ranks 0 = some place
  | .join call _ next =>
      SameJob program (state.published call.pool).call call ∧ 0 < next ∧
      ∀ slot < next, slot < call.participants program →
        ranks slot = some .returned
  | .cover call _ next place =>
      SameJob program (state.published call.pool).call call ∧ 0 < next ∧
      next < call.participants program ∧
      call.primitive program = .parallelFor ∧
      ranks next = some place ∧ ∀ slot < next, ranks slot = some .returned
  | .coverStamp call _ next =>
      SameJob program (state.published call.pool).call call ∧ 0 < next ∧
      next < call.participants program ∧
      call.primitive program = .parallelFor ∧
      ∀ slot ≤ next, ranks slot = some .returned
  | .coverMark call dispatch next =>
      SameJob program (state.published call.pool).call call ∧ 0 < next ∧
      next < call.participants program ∧
      call.primitive program = .parallelFor ∧
      dispatch.reuseSafe = false ∧
      ∀ slot ≤ next, ranks slot = some .returned
  | _ => True

/-- The books of the open dispatch. -/
structure BooksOk (ranks : ℕ → Option RankPc) (trace : List Event)
    (state : State) (call : Call) (dispatch : Dispatch) : Prop where
  ledger : Ledger program call (state.descs (call.desc program)).nextBlock
    (blocksRun call.pool dispatch.generation trace)
    (LeftEarly call.pool dispatch.generation trace) ranks
  entered : ∀ rank < call.participants program,
    timesEntered call.pool dispatch.generation rank trace =
      if (ranks rank).isSome then 1 else 0
  called : Event.called call.pool dispatch.generation call ∈ trace
  open_ : Event.returned call.pool dispatch.generation ∉ trace

end Parts

/-- The pool of an event. -/
def Event.pool : Event → ℕ
  | .called pool _ _ | .read pool _ _ _ _ | .entered pool _ _ _ _
  | .ran pool _ _ _ _ | .left pool _ _ | .returned pool _ => pool

/-- The generation of an event. -/
def Event.generation : Event → ℕ
  | .called _ generation _ | .read _ _ generation _ _
  | .entered _ generation _ _ _ | .ran _ generation _ _ _
  | .left _ generation _ | .returned _ generation => generation

/-- The trace knows no later generation than the pools, and every job that was
published. -/
structure TraceOk (program : Program) (trace : List Event) (state : State) :
    Prop where
  old : ∀ event ∈ trace,
    event.generation ≤ (state.pools event.pool).generation
  jobs : ∀ pool, 0 < (state.published pool).generation →
    Event.called pool (state.published pool).generation
      (state.published pool).call ∈ trace

/-- The invariant; `ranks` says which shares of the open dispatch have begun,
and where they are. -/
structure Inv (program : Program) (ranks : ℕ → Option RankPc)
    (trace : List Event) (state : State) : Prop where
  slots : SlotsOk program ranks state
  words : WordsOk program state
  readers : ReadersOk program state
  descs : DescsOk program state
  pools : PoolsOk program state
  prepares : PreparesOk program state state.producer
  active : ∀ call dispatch, state.producer.active = some (call, dispatch) →
    ActiveOk program state call dispatch
  stage : StageOk program ranks state state.producer
  books : ∀ call dispatch, state.producer.active = some (call, dispatch) →
    BooksOk program ranks trace state call dispatch
  trace : TraceOk program trace state

end Citor.JobCaches
