import Citor.Dispatch.JobProducer

/-!
# The producer publishes, works and joins

From its generation to its return a dispatch keeps the descriptors' fields and
the pools' records.  The producer changes one slot at a time: it publishes a
word, takes a late worker's rank, stamps and marks it.  Rank 0, and the ranks
it took, are run under the books of the dispatch, and the return closes them.
-/

namespace Citor.JobCaches

open BlockRunners (RankPc)
open WorkerSlots (Dispatch)

section Dispatching

variable {program : Program} {ranks ranks' : ℕ → Option RankPc}
variable {trace : List Event} {state after : State} {slot next : ℕ}
variable {call : Call} {dispatch : Dispatch}

/-! ## Steps of an open dispatch -/

/-- A step of the open dispatch leaves the fields and the records alone. -/
structure Continues (program : Program) (state after : State) (call : Call)
    (dispatch : Dispatch) : Prop where
  active : state.producer.active = some (call, dispatch)
  still : after.producer.active = some (call, dispatch)
  pools : after.pools = state.pools
  published : after.published = state.published
  filledFor : after.filledFor = state.filledFor
  fields : ∀ desc, (after.descs desc).fields = (state.descs desc).fields
  slots : ∀ pool slot, pool ≠ call.pool →
    after.slots (pool, slot) = state.slots (pool, slot)
  writes : after.producer.writes program = state.producer.writes program

theorem turn_of_active {pc : ProducerPc}
    (hactive : pc.active = some (call, dispatch)) (slot : ℕ) :
    pc.turn call.pool slot = pc.ownTurn slot := by
  simp [ProducerPc.turn, pool_of_active hactive]

theorem job_of_active (hactive : state.producer.active = some (call, dispatch))
    (slot : ℕ) : state.job call.pool slot =
      (state.producer.newJob slot).getD (state.published call.pool) := by
  simp [State.job, pool_of_active hactive]

/-- A slot the step does not touch. -/
theorem Continues.untouched
    (hcontinues : Continues program state after call dispatch)
    {place place' : Option RankPc}
    (hold : WorkerOk program state call.pool slot place)
    (hslot : after.slots (call.pool, slot) = state.slots (call.pool, slot))
    (hjob : after.producer.newJob slot = state.producer.newJob slot)
    (hturn : after.producer.ownTurn slot = state.producer.ownTurn slot)
    (hplace : place' = place ∨ state.producer.ownTurn slot ≠ .opened) :
    WorkerOk program after call.pool slot place' := by
  obtain ⟨hinv, hword, hidle, hcurrent, hreader⟩ := hold
  have hjob' : after.job call.pool slot = state.job call.pool slot := by
    rw [job_of_active hcontinues.active, job_of_active hcontinues.still, hjob,
      hcontinues.published]
  have hturn' : after.producer.turn call.pool slot =
      state.producer.turn call.pool slot := by
    rw [turn_of_active hcontinues.active, turn_of_active hcontinues.still,
      hturn]
  refine ⟨?_, ?_, ?_, fun call' dispatch' hactive hpool hopen => ?_, ?_⟩
  · rw [hjob', hturn', hslot]
    rcases hplace with rfl | hclosed
    · exact hinv
    · exact hinv.replace (by
        rw [turn_of_active hcontinues.active]
        exact hclosed) _
  · rw [hslot, hcontinues.pools]
    exact hword
  · rw [hslot]
    exact hidle
  · rw [hslot]
    refine hcurrent call' dispatch' ?_ hpool (hturn' ▸ hopen)
    rw [hcontinues.active, ← hcontinues.still]
    exact hactive
  · rw [hslot, hjob', hcontinues.fields]
    exact hreader

/-- What is known of a slot of the open dispatch. -/
theorem Inv.ownSlot (hinv : Inv program ranks trace state)
    (hactive : state.producer.active = some (call, dispatch))
    (hworker : program.HasWorker call.pool slot) {job : Job} {turn : Turn}
    (hjob : (state.producer.newJob slot).getD (state.published call.pool) =
      job)
    (hturn : state.producer.ownTurn slot = turn) :
    SlotInv program call.pool job turn (ranks slot)
      (state.slots (call.pool, slot)) ∧
    (state.slots (call.pool, slot)).mailbox.generation ≤
      (state.pools call.pool).generation ∧
    ((state.slots (call.pool, slot)).mailbox.generation = 0 →
      (state.slots (call.pool, slot)).worker.pc = .load) ∧
    (turn ≠ .closed → (state.slots (call.pool, slot)).mailbox.seenPhase =
      dispatch.publishedMb) ∧
    ((state.slots (call.pool, slot)).Reader →
      Filled program job.call (state.descs (job.desc program)).fields) := by
  obtain ⟨hslot, hold, hidle, hcurrent, hreader⟩ := hinv.workerOk hworker
  have hjob' := (job_of_active hactive slot).trans hjob
  have hturn' := (turn_of_active hactive slot).trans hturn
  rw [hjob', hturn'] at hslot
  rw [hjob'] at hreader
  rw [hturn'] at hcurrent
  exact ⟨hslot, hold, hidle, hcurrent call dispatch hactive rfl, hreader⟩

/-- The slot the step is about. -/
theorem Continues.touched
    (hcontinues : Continues program state after call dispatch)
    {contents : Slot} {job : Job} {turn : Turn} {place : Option RankPc}
    (hslot : after.slots (call.pool, slot) = contents)
    (hjob : (after.producer.newJob slot).getD (state.published call.pool) =
      job)
    (hturn : after.producer.ownTurn slot = turn)
    (hinv : SlotInv program call.pool job turn place contents)
    (hold : contents.mailbox.generation ≤
      (state.pools call.pool).generation)
    (hidle : contents.mailbox.generation = 0 → contents.worker.pc = .load)
    (hcurrent : turn ≠ .closed →
      contents.mailbox.seenPhase = dispatch.publishedMb)
    (hreader : contents.Reader → Filled program job.call
      (state.descs (job.desc program)).fields) :
    WorkerOk program after call.pool slot place := by
  have hjob' : after.job call.pool slot = job := by
    rw [job_of_active hcontinues.still, hcontinues.published, hjob]
  have hturn' : after.producer.turn call.pool slot = turn := by
    rw [turn_of_active hcontinues.still, hturn]
  refine ⟨?_, ?_, ?_, fun call' dispatch' hactive _ hopen => ?_, ?_⟩
  · rw [hjob', hturn', hslot]
    exact hinv
  · rw [hslot, hcontinues.pools]
    exact hold
  · rw [hslot]
    exact hidle
  · obtain ⟨-, rfl⟩ : call = call' ∧ dispatch = dispatch' := by
      simpa [hcontinues.still] using hactive
    rw [hslot]
    exact hcurrent (hturn' ▸ hopen)
  · rw [hslot, hjob', hcontinues.fields]
    exact hreader

theorem Continues.activeOk
    (hcontinues : Continues program state after call dispatch)
    (hactive : ActiveOk program state call dispatch) :
    ActiveOk program after call dispatch := by
  refine ⟨hactive.admissible, ?_, hactive.shared, ?_, hactive.positive, ?_, ?_⟩
  · rw [hcontinues.fields]
    exact hactive.filled
  · rw [hcontinues.filledFor]
    exact hactive.home
  · rw [hcontinues.pools]
    exact hactive.generation
  · rw [hcontinues.pools, hcontinues.published]
    exact hactive.reuse

/-- A step of the open dispatch keeps the invariant, given its pool's workers,
the producer's place and the books. -/
theorem Inv.proceed (hinv : Inv program ranks trace state)
    (hcontinues : Continues program state after call dispatch)
    (hown : ∀ slot, program.HasWorker call.pool slot →
      WorkerOk program after call.pool slot (ranks' slot))
    (hstage : StageOk program ranks' after after.producer)
    {event : Option Event}
    (hbooks : BooksOk program ranks' (trace ++ event.toList) after call
      dispatch)
    (hevent : ∀ e ∈ event, e.pool = call.pool ∧
      e.generation = dispatch.generation) :
    Inv program ranks' (trace ++ event.toList) after := by
  have honly : ∀ {call' dispatch'},
      after.producer.active = some (call', dispatch') →
      call' = call ∧ dispatch' = dispatch := by
    intro call' dispatch' hactive
    simpa [hcontinues.still, eq_comm] using hactive
  have hok := hinv.active call dispatch hcontinues.active
  have houtside : ∀ pool, pool ≠ call.pool →
      state.producer.pool ≠ some pool := by
    intro pool hne
    simp [pool_of_active hcontinues.active, Ne.symm hne]
  refine hinv.produce houtside ?_ hcontinues.slots
    (fun pool _ => by rw [hcontinues.published])
    (fun pool => by rw [hcontinues.pools]) ?_ hown ?_ ?_ ?_ ?_ hstage ?_ ?_
  · intro pool hne
    simp [pool_of_active hcontinues.still, Ne.symm hne]
  · intro pool slot _ hworker hreader
    rw [hcontinues.fields]
    exact hinv.readers pool slot hworker hreader
  · intro desc hwrites
    rw [hcontinues.writes] at hwrites
    exact (hinv.descInv hwrites).congr (hcontinues.fields desc)
      (by rw [hcontinues.filledFor]) (fun pool => by rw [hcontinues.pools])
      hcontinues.published
  · simpa only [PoolsOk, hcontinues.pools, hcontinues.published]
      using hinv.pools
  · have hstill := hcontinues.still
    cases hpc : after.producer <;>
      simp only [hpc, ProducerPc.active, reduceCtorEq] at hstill <;> trivial
  · intro call' dispatch' hactive
    obtain ⟨rfl, rfl⟩ := honly hactive
    exact hcontinues.activeOk hok
  · intro call' dispatch' hactive
    obtain ⟨rfl, rfl⟩ := honly hactive
    exact hbooks
  · refine ⟨fun e hmem => ?_, fun pool hpos => ?_⟩
    · rw [hcontinues.pools]
      rcases List.mem_append.1 hmem with hold | hnew
      · exact hinv.trace.old e hold
      · obtain ⟨hpool, hgeneration⟩ := hevent e (by simpa using hnew)
        rw [hpool, hgeneration]
        exact hok.generation.le
    · rw [hcontinues.published] at hpos ⊢
      exact List.mem_append_left _ (hinv.trace.jobs pool hpos)

/-- A silent step of the open dispatch. -/
theorem Inv.proceed_silent (hinv : Inv program ranks trace state)
    (hcontinues : Continues program state after call dispatch)
    (hcounter : (after.descs (call.desc program)).nextBlock =
      (state.descs (call.desc program)).nextBlock)
    (hown : ∀ slot, program.HasWorker call.pool slot →
      WorkerOk program after call.pool slot (ranks slot))
    (hstage : StageOk program ranks after after.producer) :
    Kept program trace after none := by
  refine ⟨⟨ranks, hinv.proceed hcontinues hown hstage ?_ (by simp)⟩, by simp⟩
  exact (hinv.books call dispatch hcontinues.active).silent hcounter (by simp)

/-- A step that changes one slot. -/
theorem continues_setSlot (hactive : state.producer.active =
      some (call, dispatch)) (slot : ℕ) (contents : Slot) {pc : ProducerPc}
    (hpc : pc.active = some (call, dispatch))
    (hwrites : pc.writes program = state.producer.writes program) :
    Continues program state
      ((state.setSlot call.pool slot contents).at pc) call dispatch := by
  refine ⟨hactive, hpc, rfl, rfl, rfl, fun _ => rfl, fun pool other hne => ?_,
    hwrites⟩
  refine Function.update_of_ne (fun heq => hne ?_) _ _
  exact congrArg Prod.fst heq

/-- A step that changes no slot. -/
theorem continues_at (hactive : state.producer.active =
      some (call, dispatch)) {pc : ProducerPc}
    (hpc : pc.active = some (call, dispatch))
    (hwrites : pc.writes program = state.producer.writes program) :
    Continues program state (state.at pc) call dispatch :=
  ⟨hactive, hpc, rfl, rfl, rfl, fun _ => rfl, fun _ _ _ => rfl, hwrites⟩

theorem setSlot_self (pool slot : ℕ) (contents : Slot) (pc : ProducerPc) :
    ((state.setSlot pool slot contents).at pc).slots (pool, slot) =
      contents := by
  simp [State.setSlot, State.at]

theorem setSlot_ne (pool : ℕ) {slot other : ℕ} (hne : other ≠ slot)
    (contents : Slot) (pc : ProducerPc) :
    ((state.setSlot pool slot contents).at pc).slots (pool, other) =
      state.slots (pool, other) := by
  simp [State.setSlot, State.at, hne]

/-! ## The publish loop -/

theorem publishFrom_active (next : ℕ) :
    (call.publishFrom program dispatch next).active =
      some (call, dispatch) := by
  unfold Call.publishFrom
  split <;> split <;> rfl

theorem publishFrom_writes (next : ℕ) :
    (call.publishFrom program dispatch next).writes program =
      if dispatch.reuseSafe then none else some (call.desc program) := by
  unfold Call.publishFrom
  cases hbit : dispatch.reuseSafe <;> split <;>
    simp [ProducerPc.writes, hbit]

/-- In the publish loop the slots in front are open. -/
theorem publishFrom_ownTurn (hslot : slot < call.participants program) :
    (call.publishFrom program dispatch next).ownTurn slot =
      if slot < next then .opened else .closed := by
  unfold Call.publishFrom
  by_cases hnext : next < call.participants program
  · rw [if_pos hnext]
    cases dispatch.reuseSafe <;> rfl
  · have hlt : slot < next := by omega
    rw [if_neg hnext, if_pos hlt]
    cases dispatch.reuseSafe <;> rfl

/-- In a full publication the slots in front have the new job. -/
theorem publishFrom_newJob (hslot : slot < call.participants program) :
    (call.publishFrom program dispatch next).newJob slot =
      if dispatch.reuseSafe = false ∧ slot < next then
        some ⟨dispatch.generation, call⟩ else none := by
  unfold Call.publishFrom
  cases hbit : dispatch.reuseSafe <;> split
  · simp [ProducerPc.newJob, hbit]
  · have hlt : slot < next := by omega
    simp [ProducerPc.newJob, hlt]
  · simp [ProducerPc.newJob, hbit]
  · simp [ProducerPc.newJob]

theorem publishFrom_stage (hactive : ActiveOk program after call dispatch)
    (hpos : 0 < next) (hready : Unpublished program after call dispatch next)
    (hzero : ranks 0 = none) (hnone : ∀ slot, next ≤ slot → ranks slot = none) :
    StageOk program ranks after (call.publishFrom program dispatch next) := by
  unfold Call.publishFrom
  cases hbit : dispatch.reuseSafe <;> split
  next hlt => exact ⟨hpos, hlt, hbit, hready, hzero, hnone⟩
  next => exact ⟨hbit, hzero⟩
  next hlt => exact ⟨hpos, hlt, hready, by simp [hbit], hzero, hnone⟩
  next => exact ⟨(hactive.reuse hbit).2, hzero⟩

theorem Inv.step_drain (hinv : Inv program ranks trace state)
    (hpc : state.producer = .drain call dispatch) {event : Option Event}
    (hstep : state.producerStep program = some (after, event)) :
    Kept program trace after event := by
  have hactive : state.producer.active = some (call, dispatch) := by
    rw [hpc]; rfl
  have hstage := hinv.stage
  rw [hpc] at hstage
  obtain ⟨hless, hnone⟩ := hstage
  simp only [State.producerStep, hpc] at hstep
  split at hstep
  next hdrained =>
    simp only [Option.some.injEq, Prod.mk.injEq] at hstep
    obtain ⟨rfl, rfl⟩ := hstep
    have hcontinues : Continues program state
        (state.at (call.publishFrom program dispatch 1)) call dispatch :=
      continues_at hactive (publishFrom_active 1) (by
        rw [publishFrom_writes, hpc]; rfl)
    refine hinv.proceed_silent hcontinues rfl (fun slot hworker => ?_) ?_
    · have hpos : ¬ slot < 1 := Nat.not_lt.2 hworker.2.1
      refine hcontinues.untouched (hinv.workerOk hworker) rfl ?_ ?_ (.inl rfl)
      · rw [hpc]
        exact (publishFrom_newJob hworker.2.2).trans (by simp [hpos,
          ProducerPc.newJob])
      · rw [hpc]
        exact (publishFrom_ownTurn hworker.2.2).trans (by simp [hpos,
          ProducerPc.ownTurn])
    · exact publishFrom_stage
        (hcontinues.activeOk (hinv.active call dispatch hactive)) Nat.one_pos
        (fun slot _ hworker => ⟨hless slot hworker,
          hdrained slot hworker.2.2⟩) (hnone 0) fun slot _ => hnone slot
  next => simp at hstep

theorem Inv.step_publishDesc (hinv : Inv program ranks trace state)
    (hpc : state.producer = .publishDesc call dispatch next)
    {event : Option Event}
    (hstep : state.producerStep program = some (after, event)) :
    Kept program trace after event := by
  have hactive : state.producer.active = some (call, dispatch) := by
    rw [hpc]; rfl
  have hstage := hinv.stage
  rw [hpc] at hstage
  obtain ⟨hpos, hlt, hfull, hready, hzero, hnone⟩ := hstage
  simp only [State.producerStep, hpc, Option.some.injEq,
    Prod.mk.injEq] at hstep
  obtain ⟨rfl, rfl⟩ := hstep
  have hcontinues : Continues program state
      ((state.setSlot call.pool next
        { state.slots (call.pool, next) with
          mailboxDesc := some (call.desc program) }).at
        (.publish call dispatch next)) call dispatch :=
    continues_setSlot hactive next _ rfl (by rw [hpc]; rfl)
  refine hinv.proceed_silent hcontinues rfl (fun slot hworker => ?_) ?_
  · by_cases hsame : slot = next
    · subst hsame
      have hturn : (ProducerPc.publishDesc call dispatch slot).ownTurn slot =
          .closed := if_neg (Nat.lt_irrefl slot)
      rw [← hpc] at hturn
      obtain ⟨hslot, hold, hidle, -, hreader⟩ :=
        hinv.ownSlot hactive hworker rfl hturn
      rw [hpc] at hslot hturn hreader
      exact hcontinues.touched (setSlot_self _ _ _ _) rfl hturn
        (hslot.publishDesc (hready slot le_rfl hworker).2 _) hold hidle
        (by simp) hreader
    · exact hcontinues.untouched (hinv.workerOk hworker)
        (setSlot_ne call.pool hsame _ _) (by rw [hpc]; rfl)
        (by rw [hpc]; rfl) (.inl rfl)
  · refine ⟨hpos, hlt, fun slot hge hworker => ?_, fun _ => ?_, hzero, hnone⟩
    · by_cases hsame : slot = next
      · subst hsame
        rw [setSlot_self]
        exact hready slot le_rfl hworker
      · rw [setSlot_ne call.pool hsame]
        exact hready slot hge hworker
    · rw [setSlot_self]

/-- A pool that published the descriptor has published on every slot. -/
theorem Inv.reuse_pos (hinv : Inv program ranks trace state)
    (hactive : state.producer.active = some (call, dispatch))
    (hreuse : dispatch.reuseSafe = true) {turn : Turn}
    {place : Option RankPc}
    (hslot : SlotInv program call.pool (state.published call.pool) turn place
      (state.slots (call.pool, slot))) :
    0 < (state.slots (call.pool, slot)).mailbox.generation := by
  have hlast := ((hinv.active call dispatch hactive).reuse hreuse).1
  have hpos := (hinv.pools call.pool _ hlast).1
  cases hbit : (state.slots (call.pool, slot)).mailbox.reuse with
  | true => exact hpos.trans (hslot.reuse hbit)
  | false => exact hslot.full hbit ▸ hpos

theorem Inv.step_publish (hinv : Inv program ranks trace state)
    (hpc : state.producer = .publish call dispatch next)
    {event : Option Event}
    (hstep : state.producerStep program = some (after, event)) :
    Kept program trace after event := by
  have hactive : state.producer.active = some (call, dispatch) := by
    rw [hpc]; rfl
  have hok := hinv.active call dispatch hactive
  have hstage := hinv.stage
  rw [hpc] at hstage
  obtain ⟨hpos, hlt, hready, hwired, hzero, hnone⟩ := hstage
  simp only [State.producerStep, hpc, Option.some.injEq,
    Prod.mk.injEq] at hstep
  obtain ⟨rfl, rfl⟩ := hstep
  have hcontinues : Continues program state
      ((state.setSlot call.pool next
        { state.slots (call.pool, next) with
          mailbox := dispatch.publishedMb }).at
        (call.publishFrom program dispatch (next + 1))) call dispatch :=
    continues_setSlot hactive next _ (publishFrom_active _) (by
      rw [publishFrom_writes, hpc]; rfl)
  refine hinv.proceed_silent hcontinues rfl (fun slot hworker => ?_) ?_
  · by_cases hsame : slot = next
    · subst hsame
      obtain ⟨hless, hcold⟩ := hready slot le_rfl hworker
      have hturn : state.producer.ownTurn slot = .closed := by
        rw [hpc]
        exact if_neg (Nat.lt_irrefl slot)
      have hold : (state.producer.newJob slot).getD
          (state.published call.pool) = state.published call.pool := by
        simp [hpc, ProducerPc.newJob]
      obtain ⟨hslot, -⟩ := hinv.ownSlot hactive hworker hold hturn
      have hopened : (call.publishFrom program dispatch (slot + 1)).ownTurn
          slot = .opened :=
        (publishFrom_ownTurn hworker.2.2).trans (if_pos (Nat.lt_succ_self _))
      have hjob : (call.publishFrom program dispatch (slot + 1)).newJob slot =
          if dispatch.reuseSafe = false ∧ slot < slot + 1 then
            some ⟨dispatch.generation, call⟩ else none :=
        publishFrom_newJob hworker.2.2
      have hgeneration := hok.generation
      have hidle : dispatch.publishedMb.generation = 0 →
          (state.slots (call.pool, slot)).worker.pc = .load :=
        fun hzero => absurd hzero (Nat.ne_of_gt hok.positive)
      rw [hnone slot le_rfl] at hslot ⊢
      cases hbit : dispatch.reuseSafe with
      | true =>
          have hpublished : SlotInv program call.pool
              (state.published call.pool) .opened none
              { state.slots (call.pool, slot) with
                mailbox := dispatch.publishedMb } :=
            hslot.publish hcold hless rfl rfl hslot.pool_eq
              (by simp [Dispatch.publishedMb, Dispatch.publishedWith, hbit])
              fun _ => ⟨rfl, hinv.reuse_pos hactive hbit hslot⟩
          refine hcontinues.touched (setSlot_self _ _ _ _) ?_ hopened
            hpublished hgeneration.le hidle (fun _ => rfl) ?_
          · exact (congrArg (Option.getD · _) hjob).trans (by simp [hbit])
          · rintro ⟨hfull, -⟩
            simp [Dispatch.publishedMb, Dispatch.publishedWith, hbit] at hfull
      | false =>
          have hpublished : SlotInv program call.pool
              ⟨dispatch.generation, call⟩ .opened none
              { state.slots (call.pool, slot) with
                mailbox := dispatch.publishedMb } :=
            hslot.publish hcold hless rfl rfl rfl
              (fun _ => ⟨rfl, hwired hbit⟩)
              (by simp [Dispatch.publishedMb, Dispatch.publishedWith, hbit])
          refine hcontinues.touched (setSlot_self _ _ _ _) ?_ hopened
            hpublished hgeneration.le hidle (fun _ => rfl)
            fun _ => hok.filled
          exact (congrArg (Option.getD · _) hjob).trans (by simp [hbit])
    · refine hcontinues.untouched (hinv.workerOk hworker)
        (setSlot_ne call.pool hsame _ _) ?_ ?_ (.inl rfl)
      · rw [hpc]
        refine (publishFrom_newJob hworker.2.2).trans ?_
        have : slot < next + 1 ↔ slot < next := by omega
        simp [ProducerPc.newJob, this]
      · rw [hpc]
        refine (publishFrom_ownTurn hworker.2.2).trans ?_
        have : slot < next + 1 ↔ slot < next := by omega
        simp [ProducerPc.ownTurn, this]
  · refine publishFrom_stage (hcontinues.activeOk hok) (by omega)
      (fun slot hge hworker => ?_) hzero fun slot hge =>
        hnone slot (by omega)
    rw [setSlot_ne call.pool (by omega)]
    exact hready slot (by omega) hworker

theorem Inv.step_record (hinv : Inv program ranks trace state)
    (hpc : state.producer = .record call dispatch) {event : Option Event}
    (hstep : state.producerStep program = some (after, event)) :
    Kept program trace after event := by
  have hactive : state.producer.active = some (call, dispatch) := by
    rw [hpc]; rfl
  have hok := hinv.active call dispatch hactive
  have hbooks := hinv.books call dispatch hactive
  have hstage := hinv.stage
  rw [hpc] at hstage
  obtain ⟨hfull, hzero⟩ := hstage
  simp only [State.producerStep, hpc, Option.some.injEq,
    Prod.mk.injEq] at hstep
  obtain ⟨rfl, rfl⟩ := hstep
  obtain ⟨after, hafter⟩ : ∃ after : State, after =
      { state.at (.enterSlot0 call dispatch) with
        pools := Function.update state.pools call.pool
          { state.pools call.pool with
            lastPublishedDesc := some (call.desc program) }
        published := Function.update state.published call.pool
          ⟨dispatch.generation, call⟩ } := ⟨_, rfl⟩
  rw [← hafter]
  have hproducer : after.producer = .enterSlot0 call dispatch := by
    rw [hafter]; rfl
  have hdescs : after.descs = state.descs := by rw [hafter]; rfl
  have hslots : after.slots = state.slots := by rw [hafter]; rfl
  have hfor : after.filledFor = state.filledFor := by rw [hafter]; rfl
  have hstill : after.producer.active = some (call, dispatch) := by
    rw [hproducer]; rfl
  have hpublished : after.published call.pool = ⟨dispatch.generation, call⟩ := by
    simp [hafter]
  have hlast : (after.pools call.pool).lastPublishedDesc =
      some (call.desc program) := by
    simp [hafter]
  have hgeneration : ∀ pool, (after.pools pool).generation =
      (state.pools pool).generation := by
    intro pool
    by_cases hpool : pool = call.pool
    · subst hpool
      simp [hafter]
    · simp [hafter, State.at, hpool]
  have hother : ∀ pool, pool ≠ call.pool →
      after.published pool = state.published pool ∧
      after.pools pool = state.pools pool := by
    intro pool hne
    simp [hafter, State.at, hne]
  have hopen : ∀ {call' dispatch'},
      after.producer.active = some (call', dispatch') →
      call' = call ∧ dispatch' = dispatch := by
    intro call' dispatch' hactive'
    simpa [hstill, eq_comm] using hactive'
  have houtside : ∀ pool, pool ≠ call.pool →
      state.producer.pool ≠ some pool := by
    intro pool hne
    simp [pool_of_active hactive, Ne.symm hne]
  have hfilled : Filled program call
      (after.descs (call.desc program)).fields := by
    rw [hdescs]
    exact hok.filled
  refine ⟨⟨ranks, hinv.produce houtside ?_ (fun pool slot _ => by rw [hslots])
    (fun pool hne => (hother pool hne).1) (fun pool => (hgeneration pool).ge)
    ?_ ?_ ?_ ?_ ?_ ?_ ?_ ?_ ?_⟩, by simp⟩
  · intro pool hne
    simp [pool_of_active hstill, Ne.symm hne]
  · intro pool slot _ hworker hreader
    rw [hdescs]
    exact hinv.readers pool slot hworker hreader
  · intro slot hworker
    have hturn : state.producer.ownTurn slot = .opened := by rw [hpc]; rfl
    have hjob : (state.producer.newJob slot).getD
        (state.published call.pool) = ⟨dispatch.generation, call⟩ := by
      rw [hpc]; rfl
    obtain ⟨hslot, hold, hidle, hcurrent, hreader⟩ :=
      hinv.ownSlot hactive hworker hjob hturn
    have hjob' : after.job call.pool slot = ⟨dispatch.generation, call⟩ := by
      rw [job_of_active hstill, hpublished, hproducer]; rfl
    have hturn' : after.producer.turn call.pool slot = .opened := by
      rw [turn_of_active hstill, hproducer]; rfl
    refine ⟨?_, ?_, ?_, fun call' dispatch' hactive' _ _ => ?_, ?_⟩
    · rw [hjob', hturn', hslots]
      exact hslot
    · rw [hslots, hgeneration]
      exact hold
    · rw [hslots]
      exact hidle
    · obtain ⟨rfl, rfl⟩ := hopen hactive'
      rw [hslots]
      exact hcurrent (by simp)
    · rw [hslots, hjob', hdescs]
      exact hreader
  · intro desc _
    by_cases hsame : desc = call.desc program
    · subst hsame
      refine .inr ⟨call, rfl, hfilled, hfor ▸ hok.home, fun _ _ => ?_⟩
      rw [hpublished]
      exact SameJob.refl call
    · have hwrites : state.producer.writes program ≠ some desc := by
        simpa [hpc, ProducerPc.writes, hfull, eq_comm] using hsame
      rcases hinv.descInv hwrites with
        hfresh | ⟨filler, hdesc, hvalues, hhome, hjob⟩
      · exact .inl (hdescs ▸ hfresh)
      · refine .inr ⟨filler, hdesc, hdescs ▸ hvalues, hfor ▸ hhome,
          fun hpool hshared => ?_⟩
        by_cases hown : filler.pool = call.pool
        · rw [hown, hlast] at hpool
          exact absurd (Option.some.inj hpool).symm hsame
        · rw [(hother _ hown).2] at hpool
          rw [(hother _ hown).1]
          exact hjob hpool hshared
  · intro pool desc hpool
    by_cases hown : pool = call.pool
    · subst hown
      rw [hlast] at hpool
      rw [hpublished]
      exact ⟨hok.positive, Option.some.inj hpool⟩
    · rw [(hother _ hown).2] at hpool
      rw [(hother _ hown).1]
      exact hinv.pools pool desc hpool
  · rw [hproducer]
    trivial
  · intro call' dispatch' hactive'
    obtain ⟨rfl, rfl⟩ := hopen hactive'
    exact ⟨hok.admissible, hfilled, hok.shared, hfor ▸ hok.home, hok.positive,
      hok.generation.trans (hgeneration _).symm,
      fun hbit => by simp [hfull] at hbit⟩
  · rw [hproducer]
    refine ⟨?_, hzero⟩
    rw [hpublished]
    exact SameJob.refl call
  · intro call' dispatch' hactive'
    obtain ⟨rfl, rfl⟩ := hopen hactive'
    exact hbooks.silent (by rw [hdescs]) (by simp)
  · refine ⟨fun e hmem => ?_, fun pool hpos => ?_⟩
    · rw [hgeneration]
      exact hinv.trace.old e (by simpa using hmem)
    · by_cases hown : pool = call.pool
      · subst hown
        rw [hpublished]
        exact List.mem_append_left _ hbooks.called
      · rw [(hother _ hown).1] at hpos ⊢
        exact List.mem_append_left _ (hinv.trace.jobs pool hpos)

/-! ## The producer's shares -/

/-- The producer reads its call's parameters from its descriptor. -/
theorem producerParams_eq
    (hfilled : Filled program call
      (state.descs (call.desc program)).fields) :
    state.producerParams program call = call.params program := by
  have hvalue : ∀ field ∈ EntryKind.copied .contiguous,
      (state.descs (call.desc program)).fields field =
        call.value program field := fun field hfield =>
    hfilled field (mem_written (copied_subset _ hfield))
  simp only [State.producerParams, Call.params, Fields.params]
  rw [hvalue .fnPtr (by simp [EntryKind.copied]),
    hvalue .first (by simp [EntryKind.copied]),
    hvalue .last (by simp [EntryKind.copied]),
    hvalue .chunk (by simp [EntryKind.copied]),
    hvalue .blockCount (by simp [EntryKind.copied]),
    hvalue .participants (by simp [EntryKind.copied])]

/-- A share that begins on the producer is right. -/
theorem Inv.entered_right (hinv : Inv program ranks trace state)
    (hactive : state.producer.active = some (call, dispatch)) {rank : ℕ}
    (hrank : rank < call.participants program) (hnone : ranks rank = none)
    {claimedOn : Option ℕ}
    (htarget : ∀ target, claimedOn = some target → target = call.pool) :
    let event := Event.entered call.pool dispatch.generation rank
      (state.producerParams program call) claimedOn
    ShareRight program trace event ∧ AccessRight program trace event := by
  have hbooks := hinv.books call dispatch hactive
  have hentered := hbooks.entered rank hrank
  rw [hnone] at hentered
  refine ⟨⟨⟨call, hbooks.called, producerParams_eq
    (hinv.active call dispatch hactive).filled⟩, hrank, hentered,
    hbooks.open_⟩, htarget⟩

/-- An operation of a runner on the producer moves the block counter at most,
and keeps the books; what it shows is right. -/
theorem Inv.runRank (hinv : Inv program ranks trace state)
    (hactive : state.producer.active = some (call, dispatch)) {rank : ℕ}
    (hrank : rank < call.participants program) {place : RankPc}
    (hplace : ranks rank = some place) {middle : State} {place' : RankPc}
    {event : Option Event}
    (hrun : state.runRank program call dispatch.generation rank place =
      some (middle, place', event)) :
    (∃ counter, middle = state.setDesc (call.desc program)
      { state.descs (call.desc program) with nextBlock := counter }) ∧
    BooksOk program (Function.update ranks rank (some place'))
      (trace ++ event.toList) middle call dispatch ∧
    ∀ e ∈ event, (e.pool = call.pool ∧ e.generation = dispatch.generation) ∧
      ShareRight program trace e ∧ AccessRight program trace e := by
  have hbooks := hinv.books call dispatch hactive
  have hfilled := (hinv.active call dispatch hactive).filled
  have hblocks : (state.descs (call.desc program)).fields .blockCount =
      (call.shape program).blockCount :=
    hfilled .blockCount (mem_written (by simp))
  have hparticipants : (state.descs (call.desc program)).fields .participants =
      call.participants program :=
    hfilled .participants (mem_written (by simp))
  -- a place from which the rank asks for its next block
  have hclaim : ∀ prevIdx : Option ℕ, place = prevIdx.elim .entered .ran →
      state.runRank program call dispatch.generation rank place =
        (let outcome := (call.entry program).kind.nextBlockId
          (call.shape program).blockCount (call.participants program) rank
          prevIdx (state.descs (call.desc program)).nextBlock
        some (state.setDesc (call.desc program)
          { state.descs (call.desc program) with nextBlock := outcome.2 },
          outcome.1.elim .returned .claimed, none)) →
      (∃ counter, middle = state.setDesc (call.desc program)
        { state.descs (call.desc program) with nextBlock := counter }) ∧
      BooksOk program (Function.update ranks rank (some place'))
        (trace ++ event.toList) middle call dispatch ∧
      ∀ e ∈ event, (e.pool = call.pool ∧
        e.generation = dispatch.generation) ∧
        ShareRight program trace e ∧ AccessRight program trace e := by
    intro prevIdx hprev heq
    rw [heq] at hrun
    simp only [Option.some.injEq, Prod.mk.injEq] at hrun
    obtain ⟨rfl, rfl, rfl⟩ := hrun
    refine ⟨⟨_, rfl⟩, ?_, by simp⟩
    simp only [Option.toList_none, List.append_nil]
    refine hbooks.claim hrank hplace hprev rfl ?_
    simp [State.setDesc]
  cases place with
  | returned => simp [State.runRank] at hrun
  | entered =>
      refine hclaim none rfl ?_
      simp only [State.runRank, hblocks, hparticipants]
  | ran blockId =>
      refine hclaim (some blockId) rfl ?_
      simp only [State.runRank, hblocks, hparticipants]
  | claimed blockId =>
      simp only [State.runRank, producerParams_eq hfilled, Option.some.injEq,
        Prod.mk.injEq] at hrun
      obtain ⟨rfl, rfl, rfl⟩ := hrun
      have hcounter : (state.descs (call.desc program)).nextBlock =
          (state.descs (call.desc program)).nextBlock := rfl
      obtain ⟨hfresh, hlt, hnext⟩ :=
        hbooks.run hcounter hrank hplace (call.params program)
      refine ⟨⟨(state.descs (call.desc program)).nextBlock, ?_⟩, hnext, ?_⟩
      · simp [State.setDesc]
      · exact forall_shown
          ⟨⟨rfl, rfl⟩, ⟨⟨call, hbooks.called, rfl, hlt⟩, hfresh, hbooks.open_⟩,
            trivial⟩

/-- A step that moves the block counter at most. -/
theorem continues_setCounter (hactive : state.producer.active =
      some (call, dispatch)) (counter : ℕ) {pc : ProducerPc}
    (hpc : pc.active = some (call, dispatch))
    (hwrites : pc.writes program = state.producer.writes program) :
    Continues program state
      ((state.setDesc (call.desc program)
        { state.descs (call.desc program) with
          nextBlock := counter }).at pc) call dispatch :=
  ⟨hactive, hpc, rfl, rfl, rfl,
    fun desc => fields_setCounter state (call.desc program) desc counter,
    fun _ _ _ => rfl, hwrites⟩

theorem BooksOk.at
    (hbooks : BooksOk program ranks trace state call dispatch)
    (pc : ProducerPc) :
    BooksOk program ranks trace (state.at pc) call dispatch :=
  ⟨hbooks.ledger, hbooks.entered, hbooks.called, hbooks.open_⟩

theorem Inv.step_enterSlot0 (hinv : Inv program ranks trace state)
    (hpc : state.producer = .enterSlot0 call dispatch) {event : Option Event}
    (hstep : state.producerStep program = some (after, event)) :
    Kept program trace after event := by
  have hactive : state.producer.active = some (call, dispatch) := by
    rw [hpc]; rfl
  have hstage := hinv.stage
  rw [hpc] at hstage
  obtain ⟨hsame, hzero⟩ := hstage
  have hcontinues : Continues program state
      (state.at (.slot0 call dispatch .entered)) call dispatch :=
    continues_at hactive rfl (by rw [hpc]; rfl)
  simp only [State.producerStep, hpc, Option.some.injEq,
    Prod.mk.injEq] at hstep
  obtain ⟨rfl, rfl⟩ := hstep
  refine ⟨⟨Function.update ranks 0 (some .entered), hinv.proceed hcontinues
    (fun slot hworker => ?_) ?_ ?_ ?_⟩, ?_⟩
  · refine hcontinues.untouched (hinv.workerOk hworker) rfl
      (by rw [hpc]; rfl) (by rw [hpc]; rfl) (.inl ?_)
    exact Function.update_of_ne (Nat.ne_of_gt hworker.2.1) _ _
  · exact ⟨hsame, Function.update_self _ _ _⟩
  · refine (hinv.books call dispatch hactive).enter ?_ hzero _ _
    rfl
  · exact forall_shown ⟨rfl, rfl⟩
  · exact forall_shown
      (hinv.entered_right hactive (program.participants_pos _) hzero (by simp))

theorem Inv.step_slot0 (hinv : Inv program ranks trace state)
    {place : RankPc} (hpc : state.producer = .slot0 call dispatch place)
    {event : Option Event}
    (hstep : state.producerStep program = some (after, event)) :
    Kept program trace after event := by
  have hactive : state.producer.active = some (call, dispatch) := by
    rw [hpc]; rfl
  have hstage := hinv.stage
  rw [hpc] at hstage
  obtain ⟨hsame, hplace⟩ := hstage
  by_cases hreturned : place = .returned
  · subst hreturned
    simp only [State.producerStep, hpc, Option.some.injEq,
      Prod.mk.injEq] at hstep
    obtain ⟨rfl, rfl⟩ := hstep
    have hcontinues : Continues program state
        (state.at (.join call dispatch 1)) call dispatch :=
      continues_at hactive rfl (by rw [hpc]; rfl)
    refine hinv.proceed_silent hcontinues rfl (fun slot hworker => ?_)
      ⟨hsame, Nat.one_pos, fun slot hslot _ => ?_⟩
    · refine hcontinues.untouched (hinv.workerOk hworker) rfl
        (by rw [hpc]; rfl) ?_ (.inl rfl)
      rw [hpc]
      exact if_neg (Nat.not_lt.2 hworker.2.1)
    · obtain rfl : slot = 0 := by omega
      exact hplace
  · have hrun : ∃ middle place', state.runRank program call
        dispatch.generation 0 place = some (middle, place', event) ∧
        after = middle.at (.slot0 call dispatch place') := by
      cases place with
      | returned => exact absurd rfl hreturned
      | _ =>
          simp only [State.producerStep, hpc, Option.map_eq_some_iff,
            Prod.mk.injEq] at hstep
          obtain ⟨⟨middle, place', event'⟩, hrun, rfl, rfl⟩ := hstep
          exact ⟨middle, place', hrun, rfl⟩
    obtain ⟨middle, place', hrun, rfl⟩ := hrun
    obtain ⟨⟨counter, rfl⟩, hbooks, hright⟩ := hinv.runRank hactive
      (program.participants_pos _) hplace hrun
    have hcontinues : Continues program state
        ((state.setDesc (call.desc program)
          { state.descs (call.desc program) with
            nextBlock := counter }).at (.slot0 call dispatch place'))
        call dispatch :=
      continues_setCounter hactive counter rfl (by rw [hpc]; rfl)
    refine ⟨⟨Function.update ranks 0 (some place'), hinv.proceed hcontinues
      (fun slot hworker => ?_) ⟨hsame, Function.update_self _ _ _⟩
      (hbooks.at _) fun e he => (hright e he).1⟩, fun e he => (hright e he).2⟩
    refine hcontinues.untouched (hinv.workerOk hworker) rfl
      (by rw [hpc]; rfl) (by rw [hpc]; rfl) (.inl ?_)
    exact Function.update_of_ne (Nat.ne_of_gt hworker.2.1) _ _

end Dispatching

end Citor.JobCaches
