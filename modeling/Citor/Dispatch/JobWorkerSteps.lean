import Citor.Dispatch.JobWorkers

/-!
# The steps of a worker

Each step of a worker keeps the invariant, and what it shows is right: a field
read from a descriptor is its job's, a share begins once and with the open
call's parameters, and a block is run once.
-/

namespace Citor.JobCaches

open BlockRunners (RankPc)
open WorkerSlots (MailboxWord Mailbox tryClaimRank)

section WorkerSteps

variable {program : Program} {ranks : ℕ → Option RankPc} {trace : List Event}
variable {state : State} {pool slot : ℕ}

/-! ## The job and the open dispatch -/

/-- The last full publication on a slot is on the trace. -/
theorem Inv.job_called (hinv : Inv program ranks trace state)
    (pool slot : ℕ) (hpos : 0 < (state.job pool slot).generation) :
    Event.called pool (state.job pool slot).generation
      (state.job pool slot).call ∈ trace := by
  unfold State.job at hpos ⊢
  split
  next hpool =>
    rw [if_pos hpool] at hpos
    cases hnew : state.producer.newJob slot with
    | none =>
        rw [hnew] at hpos
        exact hinv.trace.jobs pool hpos
    | some job =>
        rw [ProducerPc.pool, Option.map_eq_some_iff] at hpool
        obtain ⟨⟨call, dispatch⟩, hactive, rfl⟩ := hpool
        have hcalled := (hinv.books call dispatch hactive).called
        have hjob : job = ⟨dispatch.generation, call⟩ := by
          cases hpc : state.producer <;>
            simp only [hpc, ProducerPc.newJob, ProducerPc.active,
              Option.some.injEq, Prod.mk.injEq, reduceCtorEq,
              Option.ite_none_right_eq_some] at hnew hactive
          all_goals
            obtain ⟨rfl, rfl⟩ := hactive
          · exact hnew.2.symm
          · exact hnew.2.symm
          · exact hnew.symm
        rw [hjob]
        exact hcalled
  next hpool =>
    rw [if_neg hpool] at hpos
    exact hinv.trace.jobs pool hpos

/-- An open slot has the word of the open dispatch, and its workers' job is
the call's. -/
theorem Inv.opened (hinv : Inv program ranks trace state)
    (hworker : program.HasWorker pool slot)
    (hturn : state.producer.turn pool slot = .opened) :
    ∃ call dispatch, state.producer.active = some (call, dispatch) ∧
      call.pool = pool ∧
      (state.slots (pool, slot)).mailbox.generation = dispatch.generation ∧
      SameJob program (state.job pool slot).call call := by
  obtain ⟨call, dispatch, hactive, rfl, hown⟩ :=
    turn_ne_closed (by rw [hturn]; simp)
  have hphase := hinv.words.current call dispatch slot hactive hworker
    (by rw [hturn]; simp)
  refine ⟨call, dispatch, hactive, rfl,
    (MailboxWord.of_seenPhase
      (show _ = dispatch.publishedMb.seenPhase from hphase)).1, ?_⟩
  have hpool : state.producer.pool = some call.pool := by
    simp [ProducerPc.pool, hactive]
  have hreuse := (hinv.active call dispatch hactive).reuse
  have hstage := hinv.stage
  rw [hturn] at hown
  simp only [State.job, hpool, if_true]
  cases hpc : state.producer <;>
    rw [hpc] at hactive hstage hown <;>
    simp only [ProducerPc.active, Option.some.injEq, Prod.mk.injEq,
      reduceCtorEq] at hactive
  all_goals
    obtain ⟨rfl, rfl⟩ := hactive
  case drain => simp [ProducerPc.ownTurn] at hown
  case publishDesc call dispatch next | publish call dispatch next =>
    have hlt : slot < next := by
      by_contra hge
      simp [ProducerPc.ownTurn, hge] at hown
    cases hbit : dispatch.reuseSafe with
    | true => simpa [ProducerPc.newJob, hbit] using (hreuse hbit).2
    | false =>
        simpa [ProducerPc.newJob, hbit, hlt] using SameJob.refl call
  case record => exact SameJob.refl _
  all_goals exact hstage.1

/-- A worker outside the load carries a word that was published. -/
theorem Inv.word_pos (hinv : Inv program ranks trace state)
    (hworker : program.HasWorker pool slot)
    (hpc : (state.slots (pool, slot)).worker.pc ≠ .load) :
    0 < (state.slots (pool, slot)).mailbox.generation :=
  Nat.pos_of_ne_zero fun hzero =>
    hpc (hinv.words.idle pool slot hworker hzero)

/-! ## Steps outside the share -/

/-- A step that neither begins nor belongs to a share. -/
theorem Inv.worker_silent (hinv : Inv program ranks trace state)
    (hworker : program.HasWorker pool slot) {contents : Slot}
    (hquiet : Quiet (state.slots (pool, slot)) contents)
    (hpos : 0 < (state.slots (pool, slot)).mailbox.generation)
    (hslot : SlotInv program pool (state.job pool slot)
      (state.producer.turn pool slot) (ranks slot) contents)
    {event : Option Event} (hsilent : ∀ e ∈ event, e.Silent)
    (hevent : ∀ e ∈ event, e.pool = pool ∧
      e.generation ≤ (state.pools pool).generation) :
    Inv program ranks (trace ++ event.toList)
      (state.setSlot pool slot contents) := by
  refine hinv.worker hworker (moves_setSlot state pool slot contents) hquiet
    ?_ hslot (.inl rfl) hevent ?_
  · intro hzero
    rw [(MailboxWord.of_seenPhase hquiet.phase).1] at hzero
    omega
  · intro call dispatch hactive
    refine (hinv.books call dispatch hactive).silent ?_ hsilent
    rfl

/-- What a step of a worker has to show. -/
def Kept (program : Program) (trace : List Event) (after : State)
    (event : Option Event) : Prop :=
  (∃ ranks, Inv program ranks (trace ++ event.toList) after) ∧
  ∀ e ∈ event, ShareRight program trace e ∧ AccessRight program trace e

theorem Inv.kept_silent (hinv : Inv program ranks trace state)
    (hworker : program.HasWorker pool slot) {contents : Slot}
    (hquiet : Quiet (state.slots (pool, slot)) contents)
    (hpos : 0 < (state.slots (pool, slot)).mailbox.generation)
    (hslot : SlotInv program pool (state.job pool slot)
      (state.producer.turn pool slot) (ranks slot) contents) :
    Kept program trace (state.setSlot pool slot contents) none :=
  ⟨⟨ranks, hinv.worker_silent hworker hquiet hpos hslot (by simp) (by simp)⟩,
    by simp⟩

/-- A field is read: the slot is a reader's, and the value its job's. -/
theorem Inv.kept_read (hinv : Inv program ranks trace state)
    (hworker : program.HasWorker pool slot) {contents : Slot}
    (hquiet : Quiet (state.slots (pool, slot)) contents)
    (hpos : 0 < (state.slots (pool, slot)).mailbox.generation)
    (hslot : SlotInv program pool (state.job pool slot)
      (state.producer.turn pool slot) (ranks slot) contents)
    (hreader : (state.slots (pool, slot)).Reader) {field : Field}
    {generation value : ℕ}
    (hgen : generation = (state.slots (pool, slot)).mailbox.generation)
    (hvalue : value = (state.job pool slot).call.value program field) :
    Kept program trace (state.setSlot pool slot contents)
      (some (.read pool slot generation field value)) := by
  have hjob := (hinv.slots pool slot hworker).full hreader.1
  refine ⟨⟨ranks, hinv.worker_silent hworker hquiet hpos hslot
    (by simp [Event.Silent]) ?_⟩, ?_⟩
  · exact forall_shown ⟨rfl, hgen ▸ hinv.words.old pool slot hworker⟩
  · refine forall_shown ?_
    refine ⟨trivial, (state.job pool slot).call, ?_, hvalue⟩
    rw [hgen, ← hjob]
    exact hinv.job_called pool slot (by omega)

theorem Inv.step_load (hinv : Inv program ranks trace state)
    (hworker : program.HasWorker pool slot)
    (hpc : (state.slots (pool, slot)).worker.pc = .load) {after : State}
    {event : Option Event}
    (hstep : state.workerStep program pool slot = some (after, event)) :
    Kept program trace after event := by
  have hslot := hinv.slots pool slot hworker
  simp only [State.workerStep, hpc] at hstep
  split at hstep
  next hphase =>
    simp only [Option.some.injEq, Prod.mk.injEq] at hstep
    obtain ⟨rfl, rfl⟩ := hstep
    have hgen : (state.slots (pool, slot)).worker.lastSeen.generation ≠
        (state.slots (pool, slot)).mailbox.generation := fun heq =>
      hphase (hslot.seen.2 heq).symm
    have hle := hslot.seen.1
    refine hinv.kept_silent hworker ⟨rfl, rfl, rfl, ?_⟩ (by omega)
      (hslot.load hpc hphase)
    exact fun hreader => ⟨hreader.1,
      by simp [Slot.standing, hpc, hgen, Standing.Behind]⟩
  next =>
    simp only [Option.some.injEq, Prod.mk.injEq] at hstep
    obtain ⟨rfl, rfl⟩ := hstep
    exact ⟨⟨ranks, by simpa using hinv⟩, by simp⟩

theorem Inv.step_enter (hinv : Inv program ranks trace state)
    (hworker : program.HasWorker pool slot) {mailbox : Mailbox}
    (hpc : (state.slots (pool, slot)).worker.pc = .enter mailbox)
    {after : State} {event : Option Event}
    (hstep : state.workerStep program pool slot = some (after, event)) :
    Kept program trace after event := by
  have hslot := hinv.slots pool slot hworker
  have hpos := hinv.word_pos hworker (by simp [hpc])
  simp only [State.workerStep, hpc] at hstep
  cases hreuse : mailbox.reuse with
  | true =>
      obtain ⟨hcached, hentry, hnext⟩ := hslot.enter_reuse hpc hreuse
      obtain ⟨desc, hdesc⟩ := Option.isSome_iff_exists.1 hcached
      simp only [WorkerSlots.Worker.chooseDesc_reuse _ hreuse hdesc, hreuse,
        hdesc, Bool.not_true, ne_eq, not_true_eq_false, decide_false,
        Bool.or_self, Bool.false_eq_true, if_false, hentry,
        Option.some.injEq, Prod.mk.injEq] at hstep
      obtain ⟨rfl, rfl⟩ := hstep
      refine hinv.kept_silent hworker ⟨rfl, rfl, rfl, ?_⟩ hpos hnext
      rintro ⟨hfull, hbehind⟩
      refine ⟨hfull, ?_⟩
      by_cases hgen : mailbox.generation =
          (state.slots (pool, slot)).mailbox.generation <;>
        simp_all [Slot.standing, Slot.at, Standing.Behind]
  | false =>
      obtain ⟨hreading, hword, hdesc, hnext⟩ := hslot.enter_full hpc hreuse
      simp only [WorkerSlots.Worker.chooseDesc_full _ hreuse, hdesc, hreuse,
        Bool.not_false, Bool.true_or, if_true, Option.some.injEq,
        Prod.mk.injEq] at hstep
      obtain ⟨rfl, rfl⟩ := hstep
      refine hinv.kept_silent hworker ⟨rfl, rfl, rfl, ?_⟩ hpos hnext
      exact fun _ => ⟨hword, by simp [hreading, Standing.Behind]⟩

/-- What a worker in the middle of reading has at hand. -/
theorem Inv.reading (hinv : Inv program ranks trace state)
    (hworker : program.HasWorker pool slot) {mailbox : Mailbox}
    (hreading : (state.slots (pool, slot)).standing = .reading)
    (hcarried : (state.slots (pool, slot)).worker.pc.carried = some mailbox)
    (hgen : mailbox.generation =
      (state.slots (pool, slot)).mailbox.generation)
    (hfull : mailbox.reuse = false) :
    (state.slots (pool, slot)).Reader ∧
    Filled program (state.job pool slot).call
      (state.descs ((state.job pool slot).desc program)).fields := by
  have hslot := hinv.slots pool slot hworker
  have hreader : (state.slots (pool, slot)).Reader := by
    refine ⟨?_, by simp [hreading, Standing.Behind]⟩
    rw [← (hslot.carried_eq hcarried hgen).1]
    exact hfull
  exact ⟨hreader, hinv.readers pool slot hworker hreader⟩

theorem Inv.step_readEntry (hinv : Inv program ranks trace state)
    (hworker : program.HasWorker pool slot) {mailbox : Mailbox}
    {desc : DescId}
    (hpc : (state.slots (pool, slot)).worker.pc = .readEntry mailbox desc)
    {after : State} {event : Option Event}
    (hstep : state.workerStep program pool slot = some (after, event)) :
    Kept program trace after event := by
  have hslot := hinv.slots pool slot hworker
  have hok := hslot.pcOk
  simp only [Slot.PcOk, hpc] at hok
  obtain ⟨hgen, hfull, rfl⟩ := hok
  obtain ⟨hreader, hfilled⟩ := hinv.reading hworker
    (by simp [Slot.standing, hpc]) (by simp [hpc, WorkerPc.carried]) hgen hfull
  have hvalue := hfilled .workerEntry (mem_written (by simp))
  simp only [State.workerStep, hpc, hvalue, Option.some.injEq,
    Prod.mk.injEq] at hstep
  obtain ⟨rfl, rfl⟩ := hstep
  refine hinv.kept_read hworker ?_ (hinv.word_pos hworker (by simp [hpc]))
    (hslot.readEntry hpc) hreader hgen rfl
  exact ⟨rfl, rfl, rfl, fun _ => hreader⟩

theorem Inv.step_readBase (hinv : Inv program ranks trace state)
    (hworker : program.HasWorker pool slot) {mailbox : Mailbox}
    {desc : DescId} {workerEntry : ℕ}
    (hpc : (state.slots (pool, slot)).worker.pc =
      .readBase mailbox desc workerEntry)
    {after : State} {event : Option Event}
    (hstep : state.workerStep program pool slot = some (after, event)) :
    Kept program trace after event := by
  have hslot := hinv.slots pool slot hworker
  have hok := hslot.pcOk
  simp only [Slot.PcOk, hpc] at hok
  obtain ⟨hgen, hfull, rfl, -⟩ := hok
  obtain ⟨hreader, hfilled⟩ := hinv.reading hworker
    (by simp [Slot.standing, hpc]) (by simp [hpc, WorkerPc.carried]) hgen hfull
  have hvalue := hfilled .workerStateBase (mem_written (by simp))
  simp only [State.workerStep, hpc, hvalue, Option.some.injEq,
    Prod.mk.injEq] at hstep
  obtain ⟨rfl, rfl⟩ := hstep
  refine hinv.kept_read hworker ?_ (hinv.word_pos hworker (by simp [hpc]))
    (hslot.readBase hpc) hreader hgen rfl
  exact ⟨rfl, rfl, rfl, fun _ => hreader⟩

theorem Inv.step_copy (hinv : Inv program ranks trace state)
    (hworker : program.HasWorker pool slot) {mailbox : Mailbox}
    {remaining : List Field}
    (hpc : (state.slots (pool, slot)).worker.pc = .copy mailbox remaining)
    {after : State} {event : Option Event}
    (hstep : state.workerStep program pool slot = some (after, event)) :
    Kept program trace after event := by
  have hslot := hinv.slots pool slot hworker
  have hpos := hinv.word_pos hworker (by simp [hpc])
  have hok := hslot.pcOk
  simp only [Slot.PcOk, hpc] at hok
  obtain ⟨hgen, hfull, hhalf, hremaining⟩ := hok
  obtain ⟨hreader, hfilled⟩ := hinv.reading hworker
    (by simp [Slot.standing, hpc]) (by simp [hpc, WorkerPc.carried]) hgen hfull
  cases remaining with
  | nil =>
      simp only [State.workerStep, hpc, Option.some.injEq,
        Prod.mk.injEq] at hstep
      obtain ⟨rfl, rfl⟩ := hstep
      refine hinv.kept_silent hworker ?_ hpos (hslot.copied hpc)
      exact ⟨rfl, rfl, rfl, fun _ => hreader⟩
  | cons field rest =>
      have hvalue := hfilled field (mem_written
        (copied_subset _ (hremaining field (by simp))))
      simp only [State.workerStep, hpc, hhalf.cachedDesc, Option.map_some,
        hvalue, Option.some.injEq, Prod.mk.injEq] at hstep
      obtain ⟨rfl, rfl⟩ := hstep
      refine hinv.kept_read hworker ?_ hpos (hslot.copy hpc) hreader hgen rfl
      exact ⟨rfl, rfl, rfl, fun _ => hreader⟩

/-! ## The share -/

/-- A share begins on the worker of an open slot. -/
theorem Inv.kept_enter (hinv : Inv program ranks trace state)
    (hworker : program.HasWorker pool slot) {mailbox : Mailbox}
    {contents : Slot}
    (hgen : mailbox.generation = (state.slots (pool, slot)).mailbox.generation)
    (hsynced : Synced program (state.job pool slot)
      (state.slots (pool, slot)).worker)
    (hturn : state.producer.turn pool slot = .opened)
    (hplace : ranks slot = none)
    (hslot : SlotInv program pool (state.job pool slot)
      (state.producer.turn pool slot) (some .entered) contents)
    (hquiet : Quiet (state.slots (pool, slot)) contents)
    (hpos : 0 < (state.slots (pool, slot)).mailbox.generation)
    {claimedOn : Option ℕ}
    (htarget : ∀ target, claimedOn = some target → target = pool) :
    Kept program trace (state.setSlot pool slot contents)
      (some (.entered pool mailbox.generation slot
        ((state.slots (pool, slot)).worker.params program) claimedOn)) := by
  obtain ⟨call, dispatch, hactive, rfl, hword, hsame⟩ :=
    hinv.opened hworker hturn
  have hbooks := hinv.books call dispatch hactive
  have hparams : (state.slots (call.pool, slot)).worker.params program =
      call.params program := hsynced.params.trans hsame.params
  have hgeneration : mailbox.generation = dispatch.generation :=
    hgen.trans hword
  rw [hparams, hgeneration]
  refine ⟨⟨Function.update ranks slot (some .entered), ?_⟩, ?_⟩
  · refine hinv.worker hworker (moves_setSlot _ _ _ _) hquiet ?_ ?_
      (.inr ⟨hturn, _, rfl⟩) ?_ ?_
    · intro hzero
      rw [(MailboxWord.of_seenPhase hquiet.phase).1] at hzero
      omega
    · rw [Function.update_self]
      exact hslot
    · exact forall_shown
        ⟨rfl, (hinv.active call dispatch hactive).generation.le⟩
    · intro call' dispatch' hactive'
      obtain ⟨rfl, rfl⟩ : call = call' ∧ dispatch = dispatch' := by
        simpa [hactive] using hactive'
      refine hbooks.enter ?_ hplace _ _
      rfl
  · refine forall_shown ?_
    refine ⟨⟨⟨call, hbooks.called, rfl⟩, hworker.2.2, ?_, hbooks.open_⟩,
      htarget⟩
    rw [hbooks.entered slot hworker.2.2, hplace]
    simp

theorem Inv.step_claim (hinv : Inv program ranks trace state)
    (hworker : program.HasWorker pool slot) {mailbox : Mailbox}
    (hpc : (state.slots (pool, slot)).worker.pc = .claim mailbox)
    {after : State} {event : Option Event}
    (hstep : state.workerStep program pool slot = some (after, event)) :
    Kept program trace after event := by
  have hslot := hinv.slots pool slot hworker
  have hpos := hinv.word_pos hworker (by simp [hpc])
  simp only [State.workerStep, hpc] at hstep
  cases hclaims :
      (state.slots (pool, slot)).worker.claims program mailbox with
  | none =>
      simp only [hclaims, Option.some.injEq, Prod.mk.injEq] at hstep
      obtain ⟨rfl, rfl⟩ := hstep
      obtain ⟨hgen, hsynced, hturn, hplace, hnext⟩ :=
        hslot.claim_none hpc hpos hclaims
      refine hinv.kept_enter hworker hgen hsynced hturn hplace hnext ?_ hpos
        (by simp)
      exact ⟨rfl, rfl, rfl, fun hreader => by
        simp [Slot.Reader, Slot.standing, Slot.at, Standing.Behind]
          at hreader⟩
  | some target =>
      obtain rfl : target = pool := by
        rcases hslot.claims_eq hpc hpos with hsome | ⟨hnone, -⟩
        · simpa [hclaims] using hsome
        · simp [hclaims] at hnone
      simp only [hclaims, tryClaimRank, decide_eq_true_eq] at hstep
      split at hstep
      next hwon =>
        simp only [Option.some.injEq, Prod.mk.injEq] at hstep
        obtain ⟨rfl, rfl⟩ := hstep
        obtain ⟨hgen, hsynced, hturn, hplace, hnext⟩ :=
          hslot.claim_won hpc hpos hclaims hwon
        have hstate : ∀ claimed : Slot,
            (state.setSlot target slot claimed).setSlot target slot
              (((state.setSlot target slot claimed).slots
                (target, slot)).at (.body mailbox .entered)) =
            state.setSlot target slot
              (claimed.at (.body mailbox .entered)) := by
          intro claimed
          simp [State.setSlot]
        rw [hstate]
        refine hinv.kept_enter hworker hgen hsynced hturn hplace hnext ?_ hpos
          (by simp)
        exact ⟨rfl, rfl, rfl, fun hreader => by
          simp [Slot.Reader, Slot.standing, Slot.at, Standing.Behind]
            at hreader⟩
      next hlost =>
        simp only [Option.some.injEq, Prod.mk.injEq] at hstep
        obtain ⟨rfl, rfl⟩ := hstep
        refine hinv.kept_silent hworker ⟨rfl, rfl, rfl, ?_⟩ hpos
          (hslot.claim_lost hpc hpos hclaims hlost)
        rintro ⟨hfull, hbehind⟩
        refine ⟨hfull, ?_⟩
        by_cases hgen : mailbox.generation =
            (state.slots (target, slot)).mailbox.generation <;>
          simp_all [Slot.standing, Slot.at, Standing.Behind]

theorem Slot.placeAt_keeps (contents : Slot) (mailbox : Mailbox)
    (place : RankPc) :
    (contents.placeAt mailbox place).mailbox = contents.mailbox ∧
    (contents.placeAt mailbox place).mailboxDesc = contents.mailboxDesc ∧
    (contents.placeAt mailbox place).coldStamped = contents.coldStamped := by
  unfold Slot.placeAt
  split <;> exact ⟨rfl, rfl, rfl⟩

theorem Slot.placeAt_quiet (contents : Slot) {mailbox : Mailbox}
    (place : RankPc) (hgen : mailbox.generation = contents.mailbox.generation) :
    Quiet contents (contents.placeAt mailbox place) := by
  obtain ⟨hmailbox, hdesc, hcold⟩ := contents.placeAt_keeps mailbox place
  refine ⟨by rw [hmailbox], hdesc, hcold, ?_⟩
  rintro ⟨-, hbehind⟩
  unfold Slot.placeAt at hbehind
  split at hbehind <;>
    simp [Slot.standing, Slot.at, hgen, Standing.Behind] at hbehind

/-- What a worker in its share has at hand. -/
theorem Inv.in_share (hinv : Inv program ranks trace state)
    (hworker : program.HasWorker pool slot) {mailbox : Mailbox}
    {place : RankPc}
    (hpc : (state.slots (pool, slot)).worker.pc = .body mailbox place) :
    ∃ call dispatch, state.producer.active = some (call, dispatch) ∧
      call.pool = pool ∧ state.producer.turn pool slot = .opened ∧
      mailbox.generation = (state.slots (pool, slot)).mailbox.generation ∧
      mailbox.generation = dispatch.generation ∧
      ranks slot = some place ∧
      (state.slots (pool, slot)).worker.params program =
        call.params program ∧
      (state.slots (pool, slot)).worker.cachedDesc =
        some (call.desc program) ∧
      (state.slots (pool, slot)).worker.entry program = call.entry program ∧
      ∀ next, SlotInv program pool (state.job pool slot)
        (state.producer.turn pool slot) (some next)
        ((state.slots (pool, slot)).placeAt mailbox next) := by
  have hslot := hinv.slots pool slot hworker
  have hpos := hinv.word_pos hworker (by simp [hpc])
  obtain ⟨hgen, hsynced, hturn, hplace⟩ := hslot.in_body hpc hpos
  obtain ⟨call, dispatch, hactive, rfl, hword, hsame⟩ :=
    hinv.opened hworker hturn
  refine ⟨call, dispatch, hactive, rfl, hturn, hgen, hgen.trans hword, hplace,
    hsynced.params.trans hsame.params, ?_, ?_, hslot.move hpc hpos⟩
  · rw [hsynced.cachedDesc]
    exact congrArg some hsame.desc
  · exact hsynced.entry_eq.trans hsame.entry

/-- A worker moves on in its share. -/
theorem Inv.share_moves (hinv : Inv program ranks trace state)
    (hworker : program.HasWorker pool slot) {mailbox : Mailbox}
    {place : RankPc}
    (hpc : (state.slots (pool, slot)).worker.pc = .body mailbox place)
    (next : RankPc) {after : State}
    (hmoves : Moves state after pool slot
      ((state.slots (pool, slot)).placeAt mailbox next))
    {event : Option Event}
    (hevent : ∀ e ∈ event, e.pool = pool ∧
      e.generation ≤ (state.pools pool).generation)
    (hbooks : ∀ call dispatch,
      state.producer.active = some (call, dispatch) →
      BooksOk program (Function.update ranks slot (some next))
        (trace ++ event.toList) after call dispatch) :
    Inv program (Function.update ranks slot (some next))
      (trace ++ event.toList) after := by
  obtain ⟨call, dispatch, hactive, hpool, hturn, hgen, -, -, -, -, -, hnext⟩ :=
    hinv.in_share hworker hpc
  have hpos := hinv.word_pos hworker (by simp [hpc])
  refine hinv.worker hworker hmoves (Slot.placeAt_quiet _ next hgen) ?_ ?_
    (.inr ⟨hturn, _, rfl⟩) hevent hbooks
  · intro hzero
    rw [(Slot.placeAt_keeps _ mailbox next).1] at hzero
    omega
  · rw [Function.update_self]
    exact hnext next

theorem Inv.step_body (hinv : Inv program ranks trace state)
    (hworker : program.HasWorker pool slot) {mailbox : Mailbox}
    {place : RankPc}
    (hpc : (state.slots (pool, slot)).worker.pc = .body mailbox place)
    {after : State} {event : Option Event}
    (hstep : state.workerStep program pool slot = some (after, event)) :
    Kept program trace after event := by
  obtain ⟨call, dispatch, hactive, rfl, hturn, hgen, hgeneration, hplace,
    hparams, hdesc, hentry, hnext⟩ := hinv.in_share hworker hpc
  have hbooks := hinv.books call dispatch hactive
  have honly : ∀ {call' dispatch'},
      state.producer.active = some (call', dispatch') →
      call' = call ∧ dispatch' = dispatch := by
    intro call' dispatch' hactive'
    simpa [hactive, eq_comm] using hactive'
  have hrank : slot < call.participants program := hworker.2.2
  -- a place from which the rank asks for its next block
  have hclaim : ∀ prevIdx : Option ℕ, place = prevIdx.elim .entered .ran →
      state.workerStep program call.pool slot =
        (let outcome := (call.entry program).kind.nextBlockId
          (call.shape program).blockCount (call.participants program) slot
          prevIdx (state.descs (call.desc program)).nextBlock
        some ((state.setDesc (call.desc program)
            { state.descs (call.desc program) with
              nextBlock := outcome.2 }).setSlot call.pool slot
          ((state.slots (call.pool, slot)).placeAt mailbox
            (outcome.1.elim .returned .claimed)), none)) →
      Kept program trace after event := by
    intro prevIdx hprev heq
    obtain ⟨outcome, houtcome⟩ : ∃ outcome, outcome =
        (call.entry program).kind.nextBlockId (call.shape program).blockCount
          (call.participants program) slot prevIdx
          (state.descs (call.desc program)).nextBlock := ⟨_, rfl⟩
    rw [heq, ← houtcome] at hstep
    simp only [Option.some.injEq, Prod.mk.injEq] at hstep
    obtain ⟨rfl, rfl⟩ := hstep
    refine ⟨⟨_, hinv.share_moves hworker hpc
      (outcome.1.elim .returned .claimed) ?_ (by simp) ?_⟩, by simp⟩
    · refine ⟨rfl, rfl, rfl, rfl, rfl, fun desc => ?_, fun hnone => ?_⟩
      · by_cases hsame : desc = call.desc program
        · subst hsame
          simp [State.setSlot, State.setDesc]
        · simp [State.setSlot, State.setDesc, hsame]
      · simp [hactive] at hnone
    · intro call' dispatch' hactive'
      obtain ⟨rfl, rfl⟩ := honly hactive'
      simp only [Option.toList_none, List.append_nil]
      refine hbooks.claim hrank hplace hprev houtcome ?_
      simp [State.setSlot, State.setDesc]
  cases place with
  | returned => simp [State.workerStep, hpc] at hstep
  | entered =>
      refine hclaim none rfl ?_
      simp only [State.workerStep, hpc, hdesc, Option.map_some, hparams,
        hentry]
      rfl
  | ran blockId =>
      refine hclaim (some blockId) rfl ?_
      simp only [State.workerStep, hpc, hdesc, Option.map_some, hparams,
        hentry]
      rfl
  | claimed blockId =>
      simp only [State.workerStep, hpc, hparams, hgeneration,
        Option.some.injEq, Prod.mk.injEq] at hstep
      obtain ⟨rfl, rfl⟩ := hstep
      have hcontents : (state.slots (call.pool, slot)).at
          (.body mailbox (.ran blockId)) =
          (state.slots (call.pool, slot)).placeAt mailbox (.ran blockId) := by
        simp [Slot.placeAt]
      rw [hcontents]
      have hcounter : ((state.setSlot call.pool slot
          ((state.slots (call.pool, slot)).placeAt mailbox
            (.ran blockId))).descs (call.desc program)).nextBlock =
          (state.descs (call.desc program)).nextBlock := rfl
      obtain ⟨hfresh, hlt, hrun⟩ :=
        hbooks.run hcounter hrank hplace (call.params program)
      refine ⟨⟨_, hinv.share_moves hworker hpc (.ran blockId)
        (moves_setSlot _ _ _ _) ?_ ?_⟩, ?_⟩
      · exact forall_shown
          ⟨rfl, (hinv.active call dispatch hactive).generation.le⟩
      · intro call' dispatch' hactive'
        obtain ⟨rfl, rfl⟩ := honly hactive'
        exact hrun
      · exact forall_shown
          ⟨⟨⟨call, hbooks.called, rfl, hlt⟩, hfresh, hbooks.open_⟩, trivial⟩

theorem Inv.step_leaves (hinv : Inv program ranks trace state)
    (hworker : program.HasWorker pool slot) {after : State}
    {event : Option Event}
    (hstep : state.workerLeaves program pool slot = some (after, event)) :
    Kept program trace after event := by
  unfold State.workerLeaves at hstep
  cases hpc : (state.slots (pool, slot)).worker.pc with
  | body mailbox place =>
      obtain ⟨call, dispatch, hactive, rfl, hturn, hgen, hgeneration, hplace,
        hparams, hdesc, hentry, hnext⟩ := hinv.in_share hworker hpc
      simp only [hpc, hgeneration] at hstep
      split at hstep
      next hcan =>
        simp only [Option.some.injEq, Prod.mk.injEq] at hstep
        obtain ⟨rfl, rfl⟩ := hstep
        refine ⟨⟨_, hinv.share_moves hworker hpc .returned
          (moves_setSlot _ _ _ _) ?_ ?_⟩, ?_⟩
        · exact forall_shown
            ⟨rfl, (hinv.active call dispatch hactive).generation.le⟩
        · intro call' dispatch' hactive'
          obtain ⟨rfl, rfl⟩ : call = call' ∧ dispatch = dispatch' := by
            simpa [hactive] using hactive'
          refine (hinv.books call dispatch hactive).leave ?_ hworker.2.2 hplace
          rfl
        · exact forall_shown ⟨trivial, trivial⟩
      next => simp at hstep
  | _ => simp [hpc] at hstep

/-! ## The stamp and the acknowledgement -/

theorem Inv.kept_finish (hinv : Inv program ranks trace state)
    (hworker : program.HasWorker pool slot) {mailbox word : Mailbox}
    (hleaving : (state.slots (pool, slot)).standing = .leaving)
    (hcarried : (state.slots (pool, slot)).worker.pc.carried = some mailbox)
    (hgen : mailbox.generation = (state.slots (pool, slot)).mailbox.generation)
    (hword : word.seenPhase = (state.slots (pool, slot)).mailbox.seenPhase)
    {lastSeen : Mailbox} (hseen : lastSeen.seenPhase = mailbox.seenPhase) :
    Kept program trace (state.setSlot pool slot
      { state.slots (pool, slot) with
        mailbox := word
        worker :=
          { (state.slots (pool, slot)).worker with
            pc := .load
            lastSeen := lastSeen } }) none := by
  have hslot := hinv.slots pool slot hworker
  have hpos := hinv.word_pos hworker
    (fun hload => by simp [hload, WorkerPc.carried] at hcarried)
  refine hinv.kept_silent hworker ⟨hword, rfl, rfl, ?_⟩ hpos
    (hslot.finish hleaving hcarried hgen hword hseen)
  rintro ⟨-, hbehind⟩
  have hsame : lastSeen.generation = word.generation := by
    rw [(MailboxWord.of_seenPhase hseen).1, hgen,
      (MailboxWord.of_seenPhase hword).1]
  simp [Slot.standing, hsame, Standing.Behind] at hbehind

theorem Inv.step_stamp (hinv : Inv program ranks trace state)
    (hworker : program.HasWorker pool slot) {mailbox : Mailbox}
    {coldCollapseDispatch : Bool}
    (hpc : (state.slots (pool, slot)).worker.pc =
      .stamp mailbox coldCollapseDispatch)
    {after : State} {event : Option Event}
    (hstep : state.workerStep program pool slot = some (after, event)) :
    Kept program trace after event := by
  have hslot := hinv.slots pool slot hworker
  have hpos := hinv.word_pos hworker (by simp [hpc])
  have hcarried : (state.slots (pool, slot)).worker.pc.carried =
      some mailbox := by simp [hpc, WorkerPc.carried]
  have hcases := hslot.stamp_cases hpc
  simp only [State.workerStep, hpc] at hstep
  cases hstamp : mailbox.stampDone (state.slots (pool, slot)).mailbox
      coldCollapseDispatch with
  | some stamped =>
      obtain ⟨hphase, -, hsame⟩ := MailboxWord.of_stampDone hstamp
      simp only [hstamp, Option.some.injEq, Prod.mk.injEq] at hstep
      obtain ⟨rfl, rfl⟩ := hstep
      rcases hcases with ⟨hgen, hleaving, -⟩ | ⟨hne, -, -, hflag⟩
      · refine hinv.kept_finish hworker hleaving hcarried hgen ?_ hphase
        exact hphase.trans ((hslot.carried mailbox hcarried).2 hgen)
      · exact absurd (congrArg MailboxWord.generation (hsame hflag).symm) hne
  | none =>
      obtain ⟨rfl, -⟩ := MailboxWord.of_stampDone_none hstamp
      simp only [hstamp, Option.some.injEq, Prod.mk.injEq] at hstep
      obtain ⟨rfl, rfl⟩ := hstep
      refine hinv.kept_silent hworker ⟨rfl, rfl, rfl, ?_⟩ hpos
        (hslot.stamp_lost hpc)
      rintro ⟨hfull, hbehind⟩
      refine ⟨hfull, ?_⟩
      by_cases hgen : mailbox.generation =
          (state.slots (pool, slot)).mailbox.generation <;>
        simp_all [Slot.standing, Slot.at, Standing.Behind]

theorem Inv.step_acknowledge (hinv : Inv program ranks trace state)
    (hworker : program.HasWorker pool slot) {mailbox : Mailbox}
    (hpc : (state.slots (pool, slot)).worker.pc = .acknowledge mailbox)
    (hallowed : AckInTime state (.worker pool slot))
    {after : State} {event : Option Event}
    (hstep : state.workerStep program pool slot = some (after, event)) :
    Kept program trace after event := by
  have hslot := hinv.slots pool slot hworker
  have hpos := hinv.word_pos hworker (by simp [hpc])
  simp only [State.workerStep, hpc, Option.some.injEq, Prod.mk.injEq] at hstep
  obtain ⟨rfl, rfl⟩ := hstep
  by_cases hgen : mailbox.generation =
      (state.slots (pool, slot)).mailbox.generation
  · refine hinv.kept_finish hworker (by simp [Slot.standing, hpc, hgen])
      (by simp [hpc, WorkerPc.carried]) hgen ?_ ?_ <;> rfl
  · have hreuse : (state.slots (pool, slot)).mailbox.reuse = true :=
      (hallowed mailbox hpc).resolve_left (Ne.symm hgen)
    refine hinv.kept_silent hworker ⟨rfl, rfl, rfl, ?_⟩ hpos
      (hslot.acknowledge_late hpc hgen hreuse)
    rintro ⟨hfull, -⟩
    simp [MailboxWord.withAck, hreuse] at hfull

/-- Every step of a worker keeps the invariant and shows what is right. -/
theorem Inv.workerStep (hinv : Inv program ranks trace state)
    (hworker : program.HasWorker pool slot)
    (hallowed : AckInTime state (.worker pool slot)) {after : State}
    {event : Option Event}
    (hstep : state.workerStep program pool slot = some (after, event)) :
    Kept program trace after event := by
  cases hpc : (state.slots (pool, slot)).worker.pc with
  | load => exact hinv.step_load hworker hpc hstep
  | enter mailbox => exact hinv.step_enter hworker hpc hstep
  | readEntry mailbox desc => exact hinv.step_readEntry hworker hpc hstep
  | readBase mailbox desc workerEntry =>
      exact hinv.step_readBase hworker hpc hstep
  | copy mailbox remaining => exact hinv.step_copy hworker hpc hstep
  | claim mailbox => exact hinv.step_claim hworker hpc hstep
  | body mailbox place => exact hinv.step_body hworker hpc hstep
  | stamp mailbox coldCollapseDispatch =>
      exact hinv.step_stamp hworker hpc hstep
  | acknowledge mailbox =>
      exact hinv.step_acknowledge hworker hpc hallowed hstep

end WorkerSteps

end Citor.JobCaches
