import Citor.Dispatch.JobWorkerSteps

/-!
# The producer prepares its descriptor

A step of the producer touches its descriptor, and the slots of at most one
pool.  What it leaves alone on the other pools is stated once.  While a call
compares and stores its fields no worker reads the descriptor; where every
comparison succeeds, the descriptor still says which call filled it last, and
a reuse publication finds the workers with the same job.
-/

namespace Citor.JobCaches

open BlockRunners (RankPc)
open WorkerSlots (Dispatch PoolControl)

section Producer

variable {program : Program} {ranks ranks' : ℕ → Option RankPc}
variable {trace : List Event} {state after : State} {pool slot : ℕ}

/-! ## What a step leaves alone -/

/-- A worker and its slot, as the invariant wants them. -/
structure WorkerOk (program : Program) (state : State) (pool slot : ℕ)
    (place : Option RankPc) : Prop where
  inv : SlotInv program pool (state.job pool slot)
    (state.producer.turn pool slot) place (state.slots (pool, slot))
  old : (state.slots (pool, slot)).mailbox.generation ≤
    (state.pools pool).generation
  idle : (state.slots (pool, slot)).mailbox.generation = 0 →
    (state.slots (pool, slot)).worker.pc = .load
  current : ∀ call dispatch, state.producer.active = some (call, dispatch) →
    call.pool = pool → state.producer.turn pool slot ≠ .closed →
    (state.slots (pool, slot)).mailbox.seenPhase = dispatch.publishedMb
  reader : (state.slots (pool, slot)).Reader →
    Filled program (state.job pool slot).call
      (state.descs ((state.job pool slot).desc program)).fields

theorem Inv.workerOk (hinv : Inv program ranks trace state)
    (hworker : program.HasWorker pool slot) :
    WorkerOk program state pool slot (ranks slot) where
  inv := hinv.slots pool slot hworker
  old := hinv.words.old pool slot hworker
  idle := hinv.words.idle pool slot hworker
  current := by
    rintro call dispatch hactive rfl hturn
    exact hinv.words.current call dispatch slot hactive hworker hturn
  reader := hinv.readers pool slot hworker

/-- A slot outside the producer's pool has the pool's last full publication. -/
theorem job_of_pool (hpool : state.producer.pool ≠ some pool) :
    state.job pool slot = state.published pool := by
  simp [State.job, hpool]

theorem turn_of_pool {pc : ProducerPc} (hpool : pc.pool ≠ some pool) :
    pc.turn pool slot = .closed := by
  simp [ProducerPc.turn, hpool]

theorem pool_of_active {pc : ProducerPc} {call : Call} {dispatch : Dispatch}
    (hactive : pc.active = some (call, dispatch)) :
    pc.pool = some call.pool := by
  simp [ProducerPc.pool, hactive]

/-- A step of the producer is about the slots of one pool; the others only
have to find their jobs in the descriptors. -/
theorem Inv.produce {own : ℕ} {event : Option Event}
    (hinv : Inv program ranks trace state)
    (hbefore : ∀ pool, pool ≠ own → state.producer.pool ≠ some pool)
    (hafter : ∀ pool, pool ≠ own → after.producer.pool ≠ some pool)
    (hslots : ∀ pool slot, pool ≠ own →
      after.slots (pool, slot) = state.slots (pool, slot))
    (hpublished : ∀ pool, pool ≠ own →
      after.published pool = state.published pool)
    (hgeneration : ∀ pool, (state.pools pool).generation ≤
      (after.pools pool).generation)
    (hreaders : ∀ pool slot, pool ≠ own → program.HasWorker pool slot →
      (state.slots (pool, slot)).Reader →
      Filled program (state.job pool slot).call
        (after.descs ((state.job pool slot).desc program)).fields)
    (hown : ∀ slot, program.HasWorker own slot →
      WorkerOk program after own slot (ranks' slot))
    (hdescs : DescsOk program after) (hpools : PoolsOk program after)
    (hprepares : PreparesOk program after after.producer)
    (hactive : ∀ call dispatch,
      after.producer.active = some (call, dispatch) →
      ActiveOk program after call dispatch)
    (hstage : StageOk program ranks' after after.producer)
    (hbooks : ∀ call dispatch,
      after.producer.active = some (call, dispatch) →
      BooksOk program ranks' (trace ++ event.toList) after call dispatch)
    (htrace : TraceOk program (trace ++ event.toList) after) :
    Inv program ranks' (trace ++ event.toList) after := by
  have hworkers : ∀ pool slot, program.HasWorker pool slot →
      WorkerOk program after pool slot (ranks' slot) := by
    intro pool slot hworker
    by_cases hpool : pool = own
    · subst hpool
      exact hown slot hworker
    · obtain ⟨hslot, hold, hidle, -, -⟩ := hinv.workerOk hworker
      have hreader := hreaders pool slot hpool hworker
      rw [job_of_pool (hbefore pool hpool)] at hslot hreader
      rw [turn_of_pool (hbefore pool hpool)] at hslot
      refine ⟨?_, ?_, ?_, ?_, ?_⟩
      · rw [job_of_pool (hafter pool hpool), turn_of_pool (hafter pool hpool),
          hslots pool slot hpool, hpublished pool hpool]
        exact hslot.replace (by simp) _
      · rw [hslots pool slot hpool]
        exact hold.trans (hgeneration pool)
      · rw [hslots pool slot hpool]
        exact hidle
      · rintro call dispatch - - hturn
        exact absurd (turn_of_pool (hafter pool hpool)) hturn
      · rw [job_of_pool (hafter pool hpool), hslots pool slot hpool,
          hpublished pool hpool]
        exact hreader
  exact {
    slots := fun pool slot hworker => (hworkers pool slot hworker).inv
    words := {
      old := fun pool slot hworker => (hworkers pool slot hworker).old
      idle := fun pool slot hworker => (hworkers pool slot hworker).idle
      current := fun call dispatch slot hopen hworker hturn =>
        (hworkers call.pool slot hworker).current call dispatch hopen rfl
          hturn }
    readers := fun pool slot hworker => (hworkers pool slot hworker).reader
    descs := hdescs
    pools := hpools
    prepares := hprepares
    active := hactive
    stage := hstage
    books := hbooks
    trace := htrace }

/-! ## Steps of the preparation -/

/-- In the preparation a step writes at most the call's descriptor. -/
structure Prepares (program : Program) (state after : State) (call : Call) :
    Prop where
  closed : state.producer.active = none
  unopened : after.producer.active = none
  slots : after.slots = state.slots
  pools : after.pools = state.pools
  published : after.published = state.published
  descs : ∀ desc, desc ≠ call.desc program →
    after.descs desc = state.descs desc
  filledFor : ∀ desc, desc ≠ call.desc program →
    after.filledFor desc = state.filledFor desc

variable {call : Call}

theorem pool_of_inactive {pc : ProducerPc} (hactive : pc.active = none)
    (pool : ℕ) : pc.pool ≠ some pool := by
  simp [ProducerPc.pool, hactive]

theorem Prepares.job_eq (hprepares : Prepares program state after call)
    (pool slot : ℕ) : after.job pool slot = state.job pool slot := by
  rw [job_of_pool (pool_of_inactive hprepares.closed pool),
    job_of_pool (pool_of_inactive hprepares.unopened pool), hprepares.published]

theorem Prepares.unread (hprepares : Prepares program state after call)
    {desc : DescId} (hunread : Unread program state desc) :
    Unread program after desc := by
  intro pool slot
  rw [hprepares.slots, hprepares.job_eq]
  exact hunread pool slot

/-- A descriptor is as the last call on it left it, if it was not written. -/
theorem DescInv.congr {desc : DescId} (hdesc : DescInv program state desc)
    (hfields : (after.descs desc).fields = (state.descs desc).fields)
    (hfilled : after.filledFor desc = state.filledFor desc)
    (hlast : ∀ pool, (after.pools pool).lastPublishedDesc =
      (state.pools pool).lastPublishedDesc)
    (hpublished : after.published = state.published) :
    DescInv program after desc := by
  simpa only [DescInv, hfields, hfilled, hlast, hpublished] using hdesc

theorem Prepares.descInv (hprepares : Prepares program state after call)
    {desc : DescId} (hne : desc ≠ call.desc program)
    (hdesc : DescInv program state desc) : DescInv program after desc :=
  hdesc.congr (by rw [hprepares.descs desc hne])
    (hprepares.filledFor desc hne) (fun pool => by rw [hprepares.pools])
    hprepares.published

/-- A step of the preparation keeps the invariant. -/
theorem Inv.prepare (hinv : Inv program ranks trace state)
    (hprepares : Prepares program state after call)
    (hunread : Unread program state (call.desc program) ∨
      ∀ desc, (after.descs desc).fields = (state.descs desc).fields)
    (hwrites : ∀ desc, after.producer.writes program ≠ some desc →
      DescInv program after desc)
    (hok : PreparesOk program after after.producer) :
    Inv program ranks trace after := by
  have hfields : ∀ pool slot, program.HasWorker pool slot →
      (state.slots (pool, slot)).Reader →
      Filled program (state.job pool slot).call
        (after.descs ((state.job pool slot).desc program)).fields := by
    intro pool slot hworker hreader
    have hfilled := hinv.readers pool slot hworker hreader
    rcases hunread with hnobody | hsame
    · rw [hprepares.descs _ (hnobody pool slot hworker hreader)]
      exact hfilled
    · rw [hsame]
      exact hfilled
  have hinactive : ∀ {call' dispatch},
      after.producer.active ≠ some (call', dispatch) := by
    simp [hprepares.unopened]
  suffices hnext : Inv program ranks (trace ++ (none : Option Event).toList)
      after by
    simpa using hnext
  refine hinv.produce
    (fun pool (_ : pool ≠ call.pool) => pool_of_inactive hprepares.closed pool)
    (fun pool _ => pool_of_inactive hprepares.unopened pool)
    (fun pool slot _ => by rw [hprepares.slots])
    (fun pool _ => by rw [hprepares.published])
    (fun pool => by rw [hprepares.pools])
    (fun pool slot _ => hfields pool slot) ?_ hwrites ?_ hok
    (fun _ _ hopen => absurd hopen hinactive) ?_
    (fun _ _ hopen => absurd hopen hinactive) ?_
  · intro slot hworker
    obtain ⟨hslot, hold, hidle, -, -⟩ := hinv.workerOk hworker
    rw [turn_of_pool (pool_of_inactive hprepares.closed _)] at hslot
    refine ⟨?_, ?_, ?_, fun _ _ hopen => absurd hopen hinactive, ?_⟩
    · rw [hprepares.job_eq, hprepares.slots,
        turn_of_pool (pool_of_inactive hprepares.unopened _)]
      exact hslot
    · rw [hprepares.slots, hprepares.pools]
      exact hold
    · rw [hprepares.slots]
      exact hidle
    · rw [hprepares.slots, hprepares.job_eq]
      exact hfields call.pool slot hworker
  · simpa only [PoolsOk, hprepares.pools, hprepares.published] using hinv.pools
  · have hafter := hprepares.unopened
    cases hpc : after.producer <;>
      simp only [hpc, ProducerPc.active, reduceCtorEq] at hafter <;> trivial
  · simpa only [Option.toList_none, List.append_nil] using
      (⟨by simpa only [hprepares.pools] using hinv.trace.old,
        by simpa only [hprepares.published] using hinv.trace.jobs⟩ :
        TraceOk program trace after)

/-! ## What a descriptor that was not written says -/

/-- Two `parallelFor` calls with one entry, range and participant count have
one shape. -/
theorem shape_congr {left right : Call}
    (hfor : left.primitive program = .parallelFor)
    (hentry : left.workerEntry = right.workerEntry)
    (hfirst : left.first = right.first) (hlast : left.last = right.last)
    (hparticipants : left.participants program = right.participants program) :
    left.shape program = right.shape program := by
  obtain ⟨balance, hkind⟩ := (primitive_iff_typed left).1 hfor
  have hsame : left.entry program = right.entry program := by
    simp [Call.entry, hentry]
  have hkind' : (right.entry program).kind = .typed balance := hsame ▸ hkind
  simp only [Call.shape, hkind', hsame, hfirst, hlast, hparticipants]

/-- A descriptor in which every comparison succeeded was filled by a call. -/
theorem DescInv.filler {fields : Fields}
    (hdesc : DescInv program state (call.desc program))
    (hfields : fields = (state.descs (call.desc program)).fields)
    (hadmissible : call.Admissible program)
    (hguarded : ∀ field ∈ call.guarded program,
      fields field = call.value program field) :
    ∃ filler : Call, filler.desc program = call.desc program ∧
      Filled program filler fields ∧
      state.filledFor (call.desc program) = some filler.pool ∧
      ((state.pools filler.pool).lastPublishedDesc =
        some (call.desc program) → filler.Shared program →
        SameJob program (state.published filler.pool).call filler) := by
  subst hfields
  rcases hdesc with hzero | hfiller
  · have hentry := hguarded .workerEntry (mem_guarded (by simp))
    rw [hzero] at hentry
    exact absurd hentry.symm hadmissible.2.1
  · exact hfiller

theorem primitive_of_desc {left right : Call}
    (hdesc : left.desc program = right.desc program) :
    left.primitive program = right.primitive program :=
  congrArg DescId.primitive hdesc

/-- Where every comparison succeeded, the shape is right as well. -/
theorem DescInv.filled {fields : Fields}
    (hdesc : DescInv program state (call.desc program))
    (hfields : fields = (state.descs (call.desc program)).fields)
    (hadmissible : call.Admissible program)
    (hfor : call.primitive program = .parallelFor)
    (hguarded : ∀ field ∈ call.guarded program,
      fields field = call.value program field) :
    Filled program call fields := by
  obtain ⟨filler, hsame, hfilled, -⟩ :=
    hdesc.filler hfields hadmissible hguarded
  have hvalue : ∀ field ∈ [Field.first, .last, .participants, .workerEntry],
      filler.value program field = call.value program field := by
    intro field hfield
    have hkey : field ∈ [Field.first, .last, .participants, .fnPtr,
        .workerEntry, .workerStateBase] := by
      simp only [List.mem_cons, List.not_mem_nil, or_false] at hfield ⊢
      tauto
    rw [← hfilled field (List.mem_append_left _ (mem_guarded hkey)),
      hguarded field (mem_guarded hkey)]
  have hshape : filler.shape program = call.shape program :=
    shape_congr ((primitive_of_desc hsame).trans hfor)
      (hvalue .workerEntry (by simp)) (hvalue .first (by simp))
      (hvalue .last (by simp)) (hvalue .participants (by simp))
  intro field hfield
  rcases List.mem_append.1 hfield with hkey | hrest
  · exact hguarded field hkey
  · rw [hfilled field (List.mem_append_right _ hrest)]
    simp only [List.mem_cons, List.not_mem_nil, or_false] at hrest
    rcases hrest with rfl | rfl <;> simp only [Call.value, hshape]

/-- The reducer compares its shape with the other fields. -/
theorem filled_of_reduce {fields : Fields}
    (hreduce : call.primitive program = .parallelReduce)
    (hguarded : ∀ field ∈ call.guarded program,
      fields field = call.value program field) :
    Filled program call fields := by
  have hkind : (call.entry program).kind = .contiguous := by
    cases hkind : (call.entry program).kind with
    | contiguous => rfl
    | typed balance => simp [Call.primitive, hkind] at hreduce
  intro field hfield
  refine hguarded field ?_
  rcases List.mem_append.1 hfield with hkey | hrest
  · exact hkey
  · simp only [List.mem_cons, List.not_mem_nil, or_false] at hrest
    rcases hrest with rfl | rfl <;> simp [Call.guarded, hkind]

/-! ## The call and its first drain -/

theorem Inv.kept (hinv : Inv program ranks trace after) :
    Kept program trace after none :=
  ⟨⟨ranks, by simpa using hinv⟩, by simp⟩

/-- Where the producer stores no field, a descriptor is as it was. -/
theorem Inv.descInv (hinv : Inv program ranks trace state) {desc : DescId}
    (hwrites : state.producer.writes program ≠ some desc) :
    DescInv program state desc :=
  hinv.descs desc hwrites

/-- Between dispatches the workers are done with a reducer's descriptor:
nobody covers for them. -/
theorem Inv.unread_reduce (hinv : Inv program ranks trace state)
    (hclosed : state.producer.active = none)
    (hreduce : call.primitive program = .parallelReduce) :
    Unread program state (call.desc program) := by
  rintro pool slot hworker ⟨-, hbehind⟩ hdesc
  have hslot := hinv.slots pool slot hworker
  have hnot : ¬ (state.job pool slot).Claims program
      (state.slots (pool, slot)).mailbox := by
    rintro ⟨hfor, -⟩
    rw [primitive_of_desc hdesc, hreduce] at hfor
    simp at hfor
  have hfinished := (hslot.unraced hnot).2.1
    (turn_of_pool (pool_of_inactive hclosed pool))
  simp [hfinished, Standing.Behind] at hbehind

/-- After the drain of its pool nobody reads the descriptor, if the other
pools leave it free. -/
theorem Inv.unread_drained (hinv : Inv program ranks trace state)
    (hpc : state.producer = .entryDrain call)
    (hallowed : DescriptorFree program state .producer)
    (hdrained : state.Drained program call.pool) :
    Unread program state (call.desc program) := by
  rintro pool slot hworker ⟨hfull, hbehind⟩ hdesc
  have hslot := hinv.slots pool slot hworker
  have hturn : state.producer.turn pool slot = .closed := by
    rw [hpc]
    rfl
  rw [hturn] at hslot
  have hunfinished : (state.slots (pool, slot)).standing ≠ .finished := by
    intro hfinished
    simp [hfinished, Standing.Behind] at hbehind
  have hcold := hslot.uncovered rfl hfull hunfinished
  by_cases hpool : pool = call.pool
  · subst hpool
    simp [hdrained slot hworker.2.2] at hcold
  · refine hunfinished (hslot.acked hfull ?_)
    exact hallowed call hpc pool hworker.1 hpool slot hworker.2.2 hcold
      (by rw [hslot.desc hfull hbehind, hdesc])

theorem Inv.step_call (hinv : Inv program ranks trace state)
    (hidle : state.producer = .idle) (hadmissible : call.Admissible program)
    (hallowed : FilledHere program state (.call call)) :
    Kept program trace (state.at (call.start program)) none := by
  have hdescs : ∀ desc, DescInv program state desc := fun desc =>
    hinv.descInv (by simp [hidle, ProducerPc.writes])
  have hclosed : state.producer.active = none := by rw [hidle]; rfl
  have hprepares : Prepares program state (state.at (call.start program))
      call := by
    refine ⟨hclosed, ?_, rfl, rfl, rfl, fun _ _ => rfl, fun _ _ => rfl⟩
    simp only [State.at, Call.start]
    split <;> rfl
  refine (hinv.prepare hprepares (.inr fun _ => rfl)
    (fun desc _ => (hdescs desc).congr rfl rfl (fun _ => rfl) rfl) ?_).kept
  cases hprimitive : call.primitive program with
  | parallelFor =>
      simp only [State.at, Call.start, hprimitive]
      exact ⟨hadmissible, hprimitive⟩
  | parallelReduce =>
      have hunread := hprepares.unread
        (hinv.unread_reduce hclosed hprimitive)
      simp only [State.at, Call.start, hprimitive] at hunread ⊢
      exact ⟨hadmissible, hunread, ⟨[], rfl, by simp⟩, fun _ =>
        ⟨(hdescs _).congr rfl rfl (fun _ => rfl) rfl, hallowed⟩⟩

theorem Inv.step_entryDrain (hinv : Inv program ranks trace state)
    (hpc : state.producer = .entryDrain call)
    (hallowed : DescriptorFree program state .producer) {event : Option Event}
    (hstep : state.producerStep program = some (after, event)) :
    Kept program trace after event := by
  have hok := hinv.prepares
  rw [hpc] at hok
  obtain ⟨hadmissible, hfor⟩ := hok
  have hdescs : ∀ desc, DescInv program state desc := fun desc =>
    hinv.descInv (by simp [hpc, ProducerPc.writes])
  simp only [State.producerStep, hpc] at hstep
  split at hstep
  next hdrained =>
    simp only [Option.some.injEq, Prod.mk.injEq] at hstep
    obtain ⟨rfl, rfl⟩ := hstep
    have hunread := hinv.unread_drained hpc hallowed hdrained
    have hprepares : Prepares program state
        (state.at (.fill call (call.guarded program) true)) call :=
      ⟨by rw [hpc]; rfl, rfl, rfl, rfl, rfl, fun _ _ => rfl, fun _ _ => rfl⟩
    refine (hinv.prepare hprepares (.inl hunread)
      (fun desc _ => (hdescs desc).congr rfl rfl (fun _ => rfl) rfl) ?_).kept
    refine ⟨hadmissible, hprepares.unread hunread, ⟨[], rfl, by simp⟩,
      fun _ => ⟨(hdescs _).congr rfl rfl (fun _ => rfl) rfl, ?_⟩⟩
    intro hreduce
    simp [hfor] at hreduce
  next => simp at hstep

/-! ## Comparing and storing -/

/-- A descriptor whose fields up to some place are the call's, after one more
store. -/
theorem store_written {desc : JobDescriptor} {written : List Field}
    (hwritten : ∀ field ∈ written,
      desc.fields field = call.value program field) (field : Field) :
    ∀ other ∈ written ++ [field],
      (desc.store field (call.value program field)).fields other =
        call.value program other := by
  intro other hother
  by_cases hsame : other = field
  · subst hsame
    simp [JobDescriptor.store]
  · have hmem : other ∈ written := by
      simpa [hsame] using hother
    simp [JobDescriptor.store, hsame, hwritten other hmem]

/-- A store of the preparation. -/
theorem prepares_store (hclosed : state.producer.active = none)
    (contents : JobDescriptor) {pc : ProducerPc} (hpc : pc.active = none) :
    Prepares program state
      ((state.setDesc (call.desc program) contents).at pc) call := by
  refine ⟨hclosed, hpc, rfl, rfl, rfl, fun desc hne => ?_, fun _ _ => rfl⟩
  simp [State.setDesc, State.at, hne]

theorem setDesc_at_desc (contents : JobDescriptor) (desc : DescId)
    (pc : ProducerPc) :
    ((state.setDesc desc contents).at pc).descs desc = contents := by
  simp [State.setDesc, State.at]

/-- While the call's descriptor is being written, a step that keeps what is
known of the preparation keeps the invariant. -/
theorem Inv.prepare_writing (hinv : Inv program ranks trace state)
    (hprepares : Prepares program state after call)
    (hbefore : state.producer.writes program = some (call.desc program))
    (hafter : after.producer.writes program = some (call.desc program))
    (hunread : Unread program state (call.desc program) ∨
      ∀ desc, (after.descs desc).fields = (state.descs desc).fields)
    (hok : PreparesOk program after after.producer) :
    Kept program trace after none := by
  refine (hinv.prepare hprepares hunread (fun desc hne => ?_) hok).kept
  have hother : desc ≠ call.desc program := by
    rintro rfl
    exact hne hafter
  exact hprepares.descInv hother
    (hinv.descInv (by simpa [hbefore, eq_comm] using hother))

/-- The producer moves on and writes nothing. -/
theorem prepares_at (hclosed : state.producer.active = none)
    {pc : ProducerPc} (hpc : pc.active = none) :
    Prepares program state (state.at pc) call :=
  ⟨hclosed, hpc, rfl, rfl, rfl, fun _ _ => rfl, fun _ _ => rfl⟩

theorem DescInv.at {desc : DescId} (hdesc : DescInv program state desc)
    (pc : ProducerPc) : DescInv program (state.at pc) desc :=
  hdesc.congr rfl rfl (fun _ => rfl) rfl

/-- A comparison, and a store where it fails. -/
theorem Inv.step_compare (hinv : Inv program ranks trace state)
    {field : Field} {remaining : List Field} {keyMatches : Bool}
    (hpc : state.producer = .fill call (field :: remaining) keyMatches)
    {event : Option Event}
    (hstep : state.producerStep program = some (after, event)) :
    Kept program trace after event := by
  have hok := hinv.prepares
  rw [hpc] at hok
  obtain ⟨hadmissible, hunread, ⟨written, hsplit, hwritten⟩, hkey⟩ := hok
  have hclosed : state.producer.active = none := by rw [hpc]; rfl
  have hwrites : state.producer.writes program =
      some (call.desc program) := by rw [hpc]; rfl
  simp only [State.producerStep, hpc] at hstep
  split at hstep
  next heq =>
    simp only [Option.some.injEq, Prod.mk.injEq] at hstep
    obtain ⟨rfl, rfl⟩ := hstep
    have hprepares : Prepares program state
        (state.at (.fill call remaining keyMatches)) call :=
      prepares_at hclosed rfl
    refine hinv.prepare_writing hprepares hwrites rfl (.inl hunread)
      ⟨hadmissible, hprepares.unread hunread,
        ⟨written ++ [field], by simp [hsplit], ?_⟩, fun hmatches =>
        ⟨(hkey hmatches).1.at _, ?_⟩⟩
    · intro other hother
      rcases List.mem_append.1 hother with hold | hnew
      · exact hwritten other hold
      · obtain rfl : other = field := by simpa using hnew
        exact heq
    · intro hreduce hlast hrest
      refine (hkey hmatches).2 hreduce hlast fun other hother => ?_
      rcases List.mem_cons.1 hother with rfl | hmem
      · exact heq
      · exact hrest other hmem
  next =>
    simp only [Option.some.injEq, Prod.mk.injEq] at hstep
    obtain ⟨rfl, rfl⟩ := hstep
    have hprepares : Prepares program state
        ((state.setDesc (call.desc program)
          ((state.descs (call.desc program)).store field
            (call.value program field))).at (.fill call remaining false))
        call := prepares_store hclosed _ rfl
    refine hinv.prepare_writing hprepares hwrites rfl (.inl hunread)
      ⟨hadmissible, hprepares.unread hunread,
        ⟨written ++ [field], by simp [hsplit], ?_⟩, by simp⟩
    rw [setDesc_at_desc]
    exact store_written hwritten field

/-- The comparisons are done. -/
theorem Inv.step_compared (hinv : Inv program ranks trace state)
    {keyMatches : Bool} (hpc : state.producer = .fill call [] keyMatches)
    {event : Option Event}
    (hstep : state.producerStep program = some (after, event)) :
    Kept program trace after event := by
  have hok := hinv.prepares
  rw [hpc] at hok
  obtain ⟨hadmissible, hunread, ⟨written, hsplit, hwritten⟩, hkey⟩ := hok
  obtain rfl : call.guarded program = written := by simpa using hsplit
  have hclosed : state.producer.active = none := by rw [hpc]; rfl
  have hwrites : state.producer.writes program =
      some (call.desc program) := by rw [hpc]; rfl
  simp only [State.producerStep, hpc] at hstep
  cases hprimitive : call.primitive program with
  | parallelFor =>
      rw [hprimitive] at hstep
      dsimp only at hstep
      split at hstep
      next =>
        simp only [Option.some.injEq, Prod.mk.injEq] at hstep
        obtain ⟨rfl, rfl⟩ := hstep
        have hprepares : Prepares program state
            (state.at (.shape call [.chunk, .blockCount] keyMatches)) call :=
          prepares_at hclosed rfl
        exact hinv.prepare_writing hprepares hwrites rfl (.inl hunread)
          ⟨hadmissible, hprimitive, hprepares.unread hunread,
            ⟨call.guarded program, rfl, fun _ hfield => hfield, hwritten⟩,
            fun hmatches => (hkey hmatches).1.at _⟩
      next hfresh =>
        simp only [Option.some.injEq, Prod.mk.injEq] at hstep
        obtain ⟨rfl, rfl⟩ := hstep
        have hmatches : keyMatches = true := by
          by_contra hnot
          simp [hnot] at hfresh
        have hdesc := (hkey hmatches).1
        exact hinv.prepare_writing (prepares_at hclosed rfl) hwrites rfl
          (.inl hunread) ⟨hadmissible, hprimitive,
            hdesc.filled rfl hadmissible hprimitive hwritten,
            fun _ => hdesc.at _⟩
  | parallelReduce =>
      rw [hprimitive] at hstep
      simp only [Option.some.injEq, Prod.mk.injEq] at hstep
      obtain ⟨rfl, rfl⟩ := hstep
      refine hinv.prepare_writing (prepares_at hclosed rfl) hwrites rfl
        (.inl hunread) ⟨hadmissible, filled_of_reduce hprimitive hwritten,
          ?_, ?_, fun hhint => ?_⟩
      · intro hfor
        simp [hprimitive] at hfor
      · intro hkind
        simp [Call.primitive, hkind] at hprimitive
      · have hmatches : keyMatches = true := by
          simp only [Bool.and_eq_true] at hhint
          exact hhint.2
        exact ⟨(hkey hmatches).1.at _, (hkey hmatches).2⟩

/-! ## The shape and the counter -/

/-- A store of the shape; where every comparison succeeded it changes
nothing. -/
theorem Inv.step_shape (hinv : Inv program ranks trace state)
    {field : Field} {remaining : List Field} {keyMatches : Bool}
    (hpc : state.producer = .shape call (field :: remaining) keyMatches)
    {event : Option Event}
    (hstep : state.producerStep program = some (after, event)) :
    Kept program trace after event := by
  have hok := hinv.prepares
  rw [hpc] at hok
  obtain ⟨hadmissible, hfor, hunread, ⟨written, hsplit, hguarded, hwritten⟩,
    hkey⟩ := hok
  have hclosed : state.producer.active = none := by rw [hpc]; rfl
  have hwrites : state.producer.writes program =
      some (call.desc program) := by rw [hpc]; rfl
  simp only [State.producerStep, hpc, Option.some.injEq,
    Prod.mk.injEq] at hstep
  obtain ⟨rfl, rfl⟩ := hstep
  have hprepares : Prepares program state
      ((state.setDesc (call.desc program)
        ((state.descs (call.desc program)).store field
          (call.value program field))).at (.shape call remaining keyMatches))
      call := prepares_store hclosed _ rfl
  refine hinv.prepare_writing hprepares hwrites rfl (.inl hunread)
    ⟨hadmissible, hfor, hprepares.unread hunread,
      ⟨written ++ [field], by simp [hsplit], fun other hother =>
        List.mem_append_left _ (hguarded other hother), ?_⟩,
      fun hmatches => ?_⟩
  · rw [setDesc_at_desc]
    exact store_written hwritten field
  · have hdesc := hkey hmatches
    have hfilled := hdesc.filled rfl hadmissible hfor fun other hother =>
      hwritten other (hguarded other hother)
    have hmem : field ∈ call.written program := by
      rw [hsplit]
      simp
    refine hdesc.congr ?_ rfl (fun _ => rfl) rfl
    rw [setDesc_at_desc]
    change Function.update _ field _ = _
    rw [← hfilled field hmem, Function.update_eq_self]

theorem Inv.step_shaped (hinv : Inv program ranks trace state)
    {keyMatches : Bool} (hpc : state.producer = .shape call [] keyMatches)
    {event : Option Event}
    (hstep : state.producerStep program = some (after, event)) :
    Kept program trace after event := by
  have hok := hinv.prepares
  rw [hpc] at hok
  obtain ⟨hadmissible, hfor, hunread, ⟨written, hsplit, -, hwritten⟩,
    hkey⟩ := hok
  obtain rfl : call.written program = written := by simpa using hsplit
  have hclosed : state.producer.active = none := by rw [hpc]; rfl
  have hwrites : state.producer.writes program =
      some (call.desc program) := by rw [hpc]; rfl
  simp only [State.producerStep, hpc, Option.some.injEq,
    Prod.mk.injEq] at hstep
  obtain ⟨rfl, rfl⟩ := hstep
  exact hinv.prepare_writing (prepares_at hclosed rfl) hwrites rfl
    (.inl hunread) ⟨hadmissible, hfor, hwritten,
      fun hmatches => (hkey hmatches).at _⟩

/-- The counter step, whichever way its test goes, sets the counter to some
value. -/
theorem counted_eq (state : State) (desc : DescId) (more : Prop)
    [Decidable more] (participants : ℕ) :
    (if more then state.setDesc desc
        { state.descs desc with nextBlock := participants } else state) =
      state.setDesc desc
        { state.descs desc with
          nextBlock :=
            if more then participants else (state.descs desc).nextBlock } := by
  split
  · rfl
  · simp [State.setDesc]

theorem fields_setCounter (state : State) (desc other : DescId)
    (counter : ℕ) :
    ((state.setDesc desc
      { state.descs desc with nextBlock := counter }).descs other).fields =
        (state.descs other).fields := by
  by_cases hsame : other = desc
  · subst hsame
    simp [State.setDesc]
  · simp [State.setDesc, hsame]

theorem Inv.step_counter (hinv : Inv program ranks trace state)
    {keyMatches : Bool} (hpc : state.producer = .counter call keyMatches)
    {event : Option Event}
    (hstep : state.producerStep program = some (after, event)) :
    Kept program trace after event := by
  have hok := hinv.prepares
  rw [hpc] at hok
  obtain ⟨hadmissible, hfor, hfilled, hkey⟩ := hok
  have hclosed : state.producer.active = none := by rw [hpc]; rfl
  have hwrites : state.producer.writes program =
      some (call.desc program) := by rw [hpc]; rfl
  have hblocks : (state.descs (call.desc program)).fields .blockCount =
      (call.shape program).blockCount :=
    hfilled .blockCount (mem_written (by simp))
  obtain ⟨counter, hcounter⟩ : ∃ counter, counter =
      if (call.entry program).kind = .typed .dynamicChunked ∧
          call.participants program < (call.shape program).blockCount then
        call.participants program
      else (state.descs (call.desc program)).nextBlock := ⟨_, rfl⟩
  have hfields := fun desc =>
    fields_setCounter state (call.desc program) desc counter
  simp only [State.producerStep, hpc, counted_eq, hblocks,
    ← hcounter] at hstep
  split at hstep
  next hfew =>
    simp only [Option.some.injEq, Prod.mk.injEq] at hstep
    obtain ⟨rfl, rfl⟩ := hstep
    have hprepares : Prepares program state
        { (state.setDesc (call.desc program)
            { state.descs (call.desc program) with
              nextBlock := counter }).at .idle with
          filledFor := Function.update state.filledFor (call.desc program)
            (some call.pool) } call :=
      ⟨hclosed, rfl, rfl, rfl, rfl,
        fun desc hne => Function.update_of_ne hne _ _,
        fun desc hne => Function.update_of_ne hne _ _⟩
    refine (hinv.prepare hprepares (.inr hfields) (fun desc _ => ?_)
      trivial).kept
    by_cases hsame : desc = call.desc program
    · subst hsame
      refine .inr ⟨call, rfl, fun field hfield => ?_,
        Function.update_self _ _ _, fun _ hshared => ?_⟩
      · exact (congrFun (hfields _) field).trans (hfilled field hfield)
      · have := hshared hfor
        omega
    · exact hprepares.descInv hsame
        (hinv.descInv (by simpa [hwrites, eq_comm] using hsame))
  next hmany =>
    simp only [Option.some.injEq, Prod.mk.injEq] at hstep
    obtain ⟨rfl, rfl⟩ := hstep
    refine hinv.prepare_writing (prepares_store hclosed _ rfl) hwrites rfl
      (.inr hfields) ⟨hadmissible, ?_, fun _ => by omega, ?_,
        fun hhint => ⟨?_, ?_⟩⟩
    · rw [setDesc_at_desc]
      exact hfilled
    · intro hkind hmore
      rw [setDesc_at_desc, hcounter]
      exact if_pos ⟨hkind, hmore⟩
    · have hmatches : keyMatches = true := by
        simp only [Bool.and_eq_true] at hhint
        exact hhint.2
      exact (hkey hmatches).congr (hfields _) rfl (fun _ => rfl) rfl
    · intro hreduce
      simp [hfor] at hreduce

/-! ## The generation is taken -/

/-- A dispatch publishes with the reuse bit only where the workers of its pool
have the same job. -/
theorem Inv.reuse_same (hinv : Inv program ranks trace state)
    {reuseHint : Bool} (hpc : state.producer = .begin call reuseHint)
    (hreuse : (state.dispatch program call reuseHint).reuseSafe = true) :
    (state.pools call.pool).lastPublishedDesc = some (call.desc program) ∧
    SameJob program (state.published call.pool).call call := by
  have hok := hinv.prepares
  rw [hpc] at hok
  obtain ⟨hadmissible, hfilled, hshared, -, hkey⟩ := hok
  simp only [State.dispatch, PoolControl.dispatch, Bool.and_eq_true,
    decide_eq_true_eq] at hreuse
  obtain ⟨hhint, hlast⟩ := hreuse
  obtain ⟨hdesc, hhome⟩ := hkey hhint
  obtain ⟨filler, hsame, hfiller, hfor, hjob⟩ :=
    hdesc.filler rfl hadmissible fun field hfield =>
      hfilled field (List.mem_append_left _ hfield)
  have hpool : filler.pool = call.pool := by
    cases hprimitive : call.primitive program with
    | parallelReduce =>
        have hfilledFor := hhome hprimitive hlast (by simp)
        rw [hfor] at hfilledFor
        simpa using hfilledFor
    | parallelFor =>
        have hbase := (hfiller .workerStateBase (mem_written (by simp))).symm.trans
          (hfilled .workerStateBase (mem_written (by simp)))
        simpa [Call.value, primitive_of_desc hsame, hprimitive] using hbase
  have hblocks : (filler.shape program).blockCount =
      (call.shape program).blockCount :=
    (hfiller .blockCount (mem_written (by simp))).symm.trans
      (hfilled .blockCount (mem_written (by simp)))
  refine ⟨hlast, ?_⟩
  rw [hpool] at hjob
  refine (hjob hlast fun hfor' => ?_).trans
    (SameJob.of_filled hfiller hfilled hsame)
  rw [hblocks]
  exact hshared ((primitive_of_desc hsame).symm.trans hfor')

/-- The trace knows nothing of the generation that is taken next. -/
theorem Inv.unheard (hinv : Inv program ranks trace state) {event : Event}
    (hmem : event ∈ trace)
    (hgeneration :
      event.generation = (state.pools event.pool).generation + 1) :
    False := by
  have := hinv.trace.old event hmem
  omega

/-- The books of a dispatch that has just taken its generation. -/
theorem Inv.books_start (hinv : Inv program ranks trace state)
    {dispatch : Dispatch}
    (hgeneration : dispatch.generation =
      (state.pools call.pool).generation + 1)
    (hcounter : CounterOk program state call)
    (hdescs : after.descs = state.descs) :
    BooksOk program (fun _ => none)
      (trace ++ [.called call.pool dispatch.generation call]) after call
      dispatch := by
  have hblocks : blocksRun call.pool dispatch.generation
      (trace ++ [.called call.pool dispatch.generation call]) = [] := by
    rw [blocksRun_append]
    refine List.append_eq_nil_iff.2 ⟨?_, rfl⟩
    refine List.filterMap_eq_nil_iff.2 fun event hmem => ?_
    split
    next pool generation rank blockId params =>
      rw [if_neg]
      rintro ⟨rfl, rfl⟩
      exact hinv.unheard hmem hgeneration
    next => rfl
  have hentered : ∀ rank, timesEntered call.pool dispatch.generation rank
      (trace ++ [.called call.pool dispatch.generation call]) = 0 := by
    intro rank
    refine List.countP_eq_zero.2 fun event hmem => ?_
    split
    next pool generation rank' params claimedOn =>
      simp only [decide_eq_true_eq]
      rintro ⟨rfl, rfl, -⟩
      have hold := (List.mem_append.1 hmem).resolve_right (by simp)
      exact hinv.unheard hold hgeneration
    next => simp
  have hearly : ¬ LeftEarly call.pool dispatch.generation
      (trace ++ [.called call.pool dispatch.generation call]) := by
    rintro ⟨rank, hmem⟩
    have hold := (List.mem_append.1 hmem).resolve_right (by simp)
    exact hinv.unheard hold hgeneration
  refine ⟨?_, fun rank _ => by rw [hentered]; rfl,
    List.mem_append_right _ (List.mem_singleton.2 rfl), fun hmem => ?_⟩
  · rw [hblocks, hdescs, propext (iff_false_intro hearly)]
    exact Ledger.start hcounter
  · have hold := (List.mem_append.1 hmem).resolve_right (by simp)
    exact hinv.unheard hold hgeneration

theorem Inv.step_begin (hinv : Inv program ranks trace state)
    {reuseHint : Bool} (hpc : state.producer = .begin call reuseHint)
    {event : Option Event}
    (hstep : state.producerStep program = some (after, event)) :
    Kept program trace after event := by
  have hok := hinv.prepares
  rw [hpc] at hok
  obtain ⟨hadmissible, hfilled, hshared, hcounter, -⟩ := hok
  have hclosed : state.producer.active = none := by rw [hpc]; rfl
  have hreuse := hinv.reuse_same hpc
  obtain ⟨dispatch, hdispatch⟩ : ∃ dispatch,
      state.dispatch program call reuseHint = dispatch := ⟨_, rfl⟩
  have hgeneration : dispatch.generation =
      (state.pools call.pool).generation + 1 := by
    rw [← hdispatch]
    rfl
  rw [hdispatch] at hreuse
  simp only [State.producerStep, hpc, hdispatch, Option.some.injEq,
    Prod.mk.injEq] at hstep
  obtain ⟨rfl, rfl⟩ := hstep
  obtain ⟨after, hafter⟩ : ∃ after : State, after =
      { state.at (.drain call dispatch) with
        pools := Function.update state.pools call.pool
          { state.pools call.pool with generation := dispatch.generation }
        filledFor := Function.update state.filledFor (call.desc program)
          (some call.pool) } := ⟨_, rfl⟩
  have hproducer : after.producer = .drain call dispatch := by rw [hafter]; rfl
  have hlast : ∀ pool, (after.pools pool).lastPublishedDesc =
      (state.pools pool).lastPublishedDesc := by
    intro pool
    by_cases hpool : pool = call.pool
    · subst hpool
      simp [hafter]
    · simp [hafter, State.at, hpool]
  have hnew : (after.pools call.pool).generation = dispatch.generation := by
    simp [hafter]
  have hmore : ∀ pool, (state.pools pool).generation ≤
      (after.pools pool).generation := by
    intro pool
    by_cases hpool : pool = call.pool
    · subst hpool
      omega
    · simp [hafter, State.at, hpool]
  have hdescs : after.descs = state.descs := by rw [hafter]; rfl
  have hpublished : after.published = state.published := by rw [hafter]; rfl
  have hslots : after.slots = state.slots := by rw [hafter]; rfl
  have hfor : after.filledFor (call.desc program) = some call.pool := by
    simp [hafter]
  have hopen : ∀ {call' dispatch'},
      after.producer.active = some (call', dispatch') →
      call' = call ∧ dispatch' = dispatch := by
    intro call' dispatch' hactive
    simpa [hproducer, ProducerPc.active, eq_comm] using hactive
  have hpool : after.producer.pool = some call.pool := by
    rw [hproducer]; rfl
  have hjob : ∀ pool slot, after.job pool slot = state.job pool slot := by
    intro pool slot
    rw [job_of_pool (pool_of_inactive hclosed pool), State.job, hproducer,
      hpublished]
    exact ite_self _
  rw [← hafter]
  refine ⟨⟨fun _ => none, ?_⟩, ?_⟩
  · refine hinv.produce
      (fun pool (_ : pool ≠ call.pool) => pool_of_inactive hclosed pool)
      (fun pool hne => by simp [hpool, Ne.symm hne])
      (fun pool slot _ => by rw [hslots]) (fun pool _ => by rw [hpublished])
      hmore ?_ ?_ ?_ ?_ ?_ ?_ ?_ ?_ ?_
    · intro pool slot _ hworker hreader
      rw [hdescs]
      exact hinv.readers pool slot hworker hreader
    · intro slot hworker
      obtain ⟨hslot, hold, hidle, -, hreader⟩ := hinv.workerOk hworker
      rw [turn_of_pool (pool_of_inactive hclosed _)] at hslot
      have hturn : after.producer.turn call.pool slot = .closed := by
        simp [ProducerPc.turn, hproducer, ProducerPc.ownTurn]
      refine ⟨?_, ?_, ?_, fun _ _ _ _ hnot => absurd hturn hnot, ?_⟩
      · rw [hjob, hslots, hturn]
        exact hslot.replace (by simp) _
      · rw [hslots]
        exact hold.trans (hmore _)
      · rw [hslots]
        exact hidle
      · rw [hslots, hjob, hdescs]
        exact hreader
    · intro desc hwrites
      rw [hproducer] at hwrites
      by_cases hsame : desc = call.desc program
      · subst hsame
        have hbit : dispatch.reuseSafe = true := by
          by_contra hnot
          simp [ProducerPc.writes, hnot] at hwrites
        refine .inr ⟨call, rfl, ?_, hfor, fun _ _ => ?_⟩
        · rw [hdescs]
          exact hfilled
        · rw [hpublished]
          exact (hreuse hbit).2
      · refine (hinv.descInv ?_).congr (by rw [hdescs]) ?_ hlast hpublished
        · simpa [hpc, ProducerPc.writes, eq_comm] using hsame
        · simp [hafter, hsame]
    · simpa only [PoolsOk, hlast, hpublished] using hinv.pools
    · rw [hproducer]
      trivial
    · intro call' dispatch' hactive
      obtain ⟨rfl, rfl⟩ := hopen hactive
      refine ⟨hadmissible, ?_, hshared, hfor, by omega, hnew.symm,
        fun hbit => ?_⟩
      · rw [hdescs]
        exact hfilled
      · rw [hlast, hpublished]
        exact hreuse hbit
    · rw [hproducer]
      refine ⟨fun slot hworker => ?_, fun _ => rfl⟩
      rw [hslots]
      have := hinv.words.old call.pool slot hworker
      omega
    · intro call' dispatch' hactive
      obtain ⟨rfl, rfl⟩ := hopen hactive
      exact hinv.books_start hgeneration hcounter hdescs
    · refine ⟨fun e hmem => ?_, fun pool hpos => ?_⟩
      · rcases List.mem_append.1 hmem with hold | hlate
        · exact (hinv.trace.old e hold).trans (hmore _)
        · obtain rfl : e = .called call.pool dispatch.generation call := by
            simpa using hlate
          exact hnew.ge
      · rw [hpublished] at hpos ⊢
        exact List.mem_append_left _ (hinv.trace.jobs pool hpos)
  · exact forall_shown
      ⟨fun other hmem => hinv.unheard hmem hgeneration, trivial⟩

end Producer

end Citor.JobCaches
