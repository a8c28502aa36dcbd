import Citor.Dispatch.JobDispatch

/-!
# The join and the covered ranks

The producer joins the slots in turn.  While it waits for one it may win the
race for its rank: it runs the share, stamps the worker's word and, behind a
full publication, puts the slot into the mask of cold-stamped slots, which only
an acknowledgement clears.  The return finds every share run.
-/

namespace Citor.JobCaches

open BlockRunners (RankPc)
open WorkerSlots (MailboxWord Mailbox Dispatch tryClaimRank)

section Joining

variable {program : Program} {ranks ranks' : ℕ → Option RankPc}
variable {trace : List Event} {state after : State} {slot next : ℕ}
variable {call : Call} {dispatch : Dispatch}

/-! ## The join -/

/-- The word of a slot whose turn has come is the dispatch's. -/
theorem word_of_phase {word : Mailbox}
    (hphase : word.seenPhase = dispatch.publishedMb) :
    word.generation = dispatch.generation ∧
      word.reuse = dispatch.reuseSafe ∧
      word.skipClaim = dispatch.skipColdCollapse :=
  MailboxWord.of_seenPhase (show _ = dispatch.publishedMb.seenPhase from hphase)

/-- The turns behind the slot do not change when it is joined. -/
theorem joined_turn (hne : slot ≠ next) :
    (ProducerPc.join call dispatch (next + 1)).ownTurn slot =
      (ProducerPc.join call dispatch next).ownTurn slot := by
  have : slot < next + 1 ↔ slot < next := by omega
  simp [ProducerPc.ownTurn, this]

/-- The slot is joined: it is closed, and its share has returned. -/
theorem Inv.join_slot (hinv : Inv program ranks trace state)
    (hactive : state.producer.active = some (call, dispatch))
    {contents : Slot}
    (hcontinues : Continues program state
      ((state.setSlot call.pool next contents).at
        (.join call dispatch (next + 1))) call dispatch)
    (hturn : ∀ slot, slot ≠ next → state.producer.ownTurn slot =
      (ProducerPc.join call dispatch next).ownTurn slot)
    (hjob : ∀ slot, state.producer.newJob slot = none)
    (hslot : program.HasWorker call.pool next →
      SlotInv program call.pool (state.published call.pool) .closed
        (ranks next) contents)
    (hquiet : contents.mailbox.seenPhase =
        (state.slots (call.pool, next)).mailbox.seenPhase ∧
      contents.mailboxDesc = (state.slots (call.pool, next)).mailboxDesc ∧
      contents.worker = (state.slots (call.pool, next)).worker)
    (hsame : SameJob program (state.published call.pool).call call)
    (hreturned : ∀ slot ≤ next, slot < call.participants program →
      ranks slot = some .returned) :
    Kept program trace ((state.setSlot call.pool next contents).at
      (.join call dispatch (next + 1))) none := by
  obtain ⟨hphase, -, hworkerEq⟩ := hquiet
  obtain ⟨hgeneration, hreuse, -⟩ := MailboxWord.of_seenPhase hphase
  have hstanding : contents.Reader →
      (state.slots (call.pool, next)).Reader := by
    rintro ⟨hfull, hbehind⟩
    refine ⟨hreuse ▸ hfull, ?_⟩
    have hsame : contents.standing =
        (state.slots (call.pool, next)).standing := by
      simp only [Slot.standing, hworkerEq, hgeneration]
    exact hsame ▸ hbehind
  refine hinv.proceed_silent hcontinues rfl (fun slot hworker => ?_)
    ⟨hsame, Nat.succ_pos next, fun slot hlt => hreturned slot (by omega)⟩
  by_cases hnext : slot = next
  · subst hnext
    obtain ⟨-, hold, hidle, -, hreader⟩ := hinv.ownSlot hactive hworker
      (congrArg (Option.getD · _) (hjob slot)) rfl
    exact hcontinues.touched (setSlot_self _ _ _ _) rfl
      (if_pos (Nat.lt_succ_self slot)) (hslot hworker)
      (hgeneration ▸ hold) (fun hzero => hworkerEq ▸ hidle (hgeneration ▸ hzero))
      (by simp) fun h => hreader (hstanding h)
  · refine hcontinues.untouched (hinv.workerOk hworker)
      (setSlot_ne call.pool hnext _ _) ?_ ?_ (.inl rfl)
    · rw [hjob]
      rfl
    · rw [hturn slot hnext]
      exact joined_turn hnext

theorem setSlot_eq_self (state : State) (pool slot : ℕ) :
    state.setSlot pool slot (state.slots (pool, slot)) = state := by
  simp [State.setSlot]

/-- The slots of the dispatch's pool have workers. -/
theorem Inv.hasWorker (hinv : Inv program ranks trace state)
    (hactive : state.producer.active = some (call, dispatch)) (hpos : 0 < slot)
    (hlt : slot < call.participants program) :
    program.HasWorker call.pool slot :=
  ⟨(hinv.active call dispatch hactive).admissible.1, hpos, hlt⟩

/-- The return: every share was run, and where none was left early every
block. -/
theorem Inv.step_return (hinv : Inv program ranks trace state)
    (hpc : state.producer = .join call dispatch next)
    (hall : call.participants program ≤ next) :
    Kept program trace (state.at .idle)
      (some (.returned call.pool dispatch.generation)) := by
  have hactive : state.producer.active = some (call, dispatch) := by
    rw [hpc]; rfl
  have hstage := hinv.stage
  rw [hpc] at hstage
  obtain ⟨-, -, hreturned⟩ := hstage
  have hranks : ∀ rank < call.participants program,
      ranks rank = some .returned := fun rank hrank =>
    hreturned rank (by omega) hrank
  have hbooks := hinv.books call dispatch hactive
  have hok := hinv.active call dispatch hactive
  have houtside : ∀ pool, pool ≠ call.pool →
      state.producer.pool ≠ some pool := by
    intro pool hne
    simp [pool_of_active hactive, Ne.symm hne]
  have hidle : ∀ pool, (state.at .idle).producer.pool ≠ some pool :=
    pool_of_inactive rfl
  refine ⟨⟨ranks, hinv.produce houtside (fun pool _ => hidle pool)
    (fun _ _ _ => rfl) (fun _ _ => rfl) (fun _ => le_rfl)
    (fun pool slot _ => hinv.readers pool slot) ?_ ?_ hinv.pools trivial
    (fun _ _ hopen => by simp [State.at, ProducerPc.active] at hopen) trivial
    (fun _ _ hopen => by simp [State.at, ProducerPc.active] at hopen) ?_⟩, ?_⟩
  · intro slot hworker
    have hturn : state.producer.ownTurn slot = .closed := by
      rw [hpc]
      exact if_pos (Nat.lt_of_lt_of_le hworker.2.2 hall)
    have hjob : (state.producer.newJob slot).getD
        (state.published call.pool) = state.published call.pool := by
      rw [hpc]; rfl
    obtain ⟨hslot, hold, hload, -, hreader⟩ :=
      hinv.ownSlot hactive hworker hjob hturn
    have hjob' : (state.at .idle).job call.pool slot =
        state.published call.pool := job_of_pool (hidle _)
    have hturn' : (state.at .idle).producer.turn call.pool slot = .closed :=
      turn_of_pool (hidle _)
    refine ⟨?_, hold, hload, fun _ _ hopen => ?_, ?_⟩
    · rw [hjob', hturn']
      exact hslot
    · simp [State.at, ProducerPc.active] at hopen
    · rw [hjob']
      exact hreader
  · intro desc _
    refine (hinv.descInv ?_).congr rfl rfl (fun _ => rfl) rfl
    rw [hpc]
    simp [ProducerPc.writes]
  · refine ⟨fun e hmem => ?_, fun pool hpos =>
      List.mem_append_left _ (hinv.trace.jobs pool hpos)⟩
    rcases List.mem_append.1 hmem with hold | hnew
    · exact hinv.trace.old e hold
    · obtain rfl : e = .returned call.pool dispatch.generation := by
        simpa using hnew
      exact hok.generation.le
  · refine forall_shown ?_
    refine ⟨⟨fun rank hrank => ?_, call, hbooks.called, fun hclean => ?_⟩,
      trivial⟩
    · rw [hbooks.entered rank hrank, hranks rank hrank]
      rfl
    · exact hbooks.ledger.finish hranks hclean

theorem Inv.step_join (hinv : Inv program ranks trace state)
    (hpc : state.producer = .join call dispatch next) {event : Option Event}
    (hstep : state.producerStep program = some (after, event)) :
    Kept program trace after event := by
  have hactive : state.producer.active = some (call, dispatch) := by
    rw [hpc]; rfl
  have hstage := hinv.stage
  rw [hpc] at hstage
  obtain ⟨hsame, hpos, hreturned⟩ := hstage
  simp only [State.producerStep, hpc] at hstep
  split at hstep
  next hlt =>
    split at hstep
    next hdone =>
      simp only [Option.some.injEq, Prod.mk.injEq] at hstep
      obtain ⟨rfl, rfl⟩ := hstep
      have hturn : state.producer.ownTurn next = .opened := by
        rw [hpc]
        exact if_neg (Nat.lt_irrefl next)
      have hjob : ∀ slot, state.producer.newJob slot = none := by
        intro slot
        rw [hpc]
        rfl
      obtain ⟨hslot, -⟩ := hinv.ownSlot hactive
        (hinv.hasWorker hactive hpos hlt)
        (congrArg (Option.getD · _) (hjob next)) hturn
      obtain ⟨hplace, hclosed⟩ :=
        hslot.join (MailboxWord.of_withoutAck hdone).1
      have hcontinues : Continues program state
          ((state.setSlot call.pool next (state.slots (call.pool, next))).at
            (.join call dispatch (next + 1))) call dispatch :=
        continues_setSlot hactive next _ rfl (by rw [hpc]; rfl)
      have hkept := hinv.join_slot hactive hcontinues
        (fun slot _ => by rw [hpc]) hjob (fun _ => hclosed)
        ⟨rfl, rfl, rfl⟩ hsame fun slot hle hslot => ?_
      · rw [setSlot_eq_self] at hkept
        exact hkept
      · rcases Nat.lt_or_eq_of_le hle with hless | rfl
        · exact hreturned slot hless hslot
        · exact hplace
    next => simp at hstep
  next hall =>
    simp only [Option.some.injEq, Prod.mk.injEq] at hstep
    obtain ⟨rfl, rfl⟩ := hstep
    exact hinv.step_return hpc (Nat.le_of_not_lt hall)

/-! ## Covering a late worker -/

/-- The producer wins a late worker's rank. -/
theorem Inv.step_cover (hinv : Inv program ranks trace state)
    {event : Option Event}
    (hstep : state.coverStep program = some (after, event)) :
    Kept program trace after event := by
  unfold State.coverStep at hstep
  cases hpc : state.producer with
  | join call dispatch next =>
      simp only [hpc] at hstep
      split at hstep
      next hrace =>
        obtain ⟨hlt, -, hskip, hbase, hwon⟩ := hrace
        have hactive : state.producer.active = some (call, dispatch) := by
          rw [hpc]; rfl
        have hok := hinv.active call dispatch hactive
        have hstage := hinv.stage
        rw [hpc] at hstage
        obtain ⟨hsame, hpos, hreturned⟩ := hstage
        have hworker := hinv.hasWorker hactive hpos hlt
        have hfor : call.primitive program = .parallelFor := by
          rw [hok.filled .workerStateBase (mem_written (by simp))] at hbase
          by_contra hnot
          simp [Call.value, hnot] at hbase
        have hturn : state.producer.ownTurn next = .opened := by
          rw [hpc]
          exact if_neg (Nat.lt_irrefl next)
        have hjob : (state.producer.newJob next).getD
            (state.published call.pool) = state.published call.pool := by
          rw [hpc]; rfl
        obtain ⟨hslot, hold, hidle, hcurrent, hreader⟩ :=
          hinv.ownSlot hactive hworker hjob hturn
        have hphase := hcurrent (by simp)
        obtain ⟨hgeneration, -, hskipClaim⟩ := word_of_phase hphase
        have hclaims : (state.published call.pool).Claims program
            (state.slots (call.pool, next)).mailbox :=
          ⟨(primitive_of_desc hsame.desc).trans hfor, hskipClaim.trans hskip⟩
        have hless : (state.slots (call.pool, next)).claimedAt <
            (state.slots (call.pool, next)).mailbox.generation := by
          rw [hgeneration]
          simpa [tryClaimRank] using hwon
        obtain ⟨hnone, hbefore, hcovered⟩ :=
          hslot.cover hclaims hless (some .entered)
        rw [hgeneration] at hcovered
        simp only [Option.some.injEq, Prod.mk.injEq] at hstep
        obtain ⟨rfl, rfl⟩ := hstep
        have hcontinues : Continues program state
            ((state.setSlot call.pool next
              { state.slots (call.pool, next) with
                claimedAt := dispatch.generation }).at
              (.cover call dispatch next .entered)) call dispatch :=
          continues_setSlot hactive next _ rfl (by rw [hpc]; rfl)
        refine ⟨⟨Function.update ranks next (some .entered),
          hinv.proceed hcontinues (fun slot hworker' => ?_)
            ⟨hsame, hpos, hlt, hfor, Function.update_self _ _ _,
              fun slot hslot => ?_⟩ ?_ ?_⟩, ?_⟩
        · by_cases hnext : slot = next
          · subst hnext
            rw [Function.update_self]
            exact hcontinues.touched (setSlot_self _ _ _ _) rfl
              (by simp [State.at, ProducerPc.ownTurn]) hcovered hold hidle
              (fun _ => hphase) hreader
          · rw [Function.update_of_ne hnext]
            refine hcontinues.untouched (hinv.workerOk hworker')
              (setSlot_ne call.pool hnext _ _) (by rw [hpc]; rfl) ?_ (.inl rfl)
            simp [hpc, State.at, ProducerPc.ownTurn, hnext]
        · rw [Function.update_of_ne (Nat.ne_of_lt hslot)]
          exact hreturned slot hslot (hslot.trans hlt)
        · refine (hinv.books call dispatch hactive).enter ?_ hnone _ _
          rfl
        · exact forall_shown ⟨rfl, rfl⟩
        · refine forall_shown ?_
          refine hinv.entered_right hactive hlt hnone fun target htarget => ?_
          exact (Option.some.inj htarget).symm
      next => simp at hstep
  | _ => simp [hpc] at hstep

theorem Inv.step_covering (hinv : Inv program ranks trace state)
    {place : RankPc} (hpc : state.producer = .cover call dispatch next place)
    {event : Option Event}
    (hstep : state.producerStep program = some (after, event)) :
    Kept program trace after event := by
  have hactive : state.producer.active = some (call, dispatch) := by
    rw [hpc]; rfl
  have hstage := hinv.stage
  rw [hpc] at hstage
  obtain ⟨hsame, hpos, hlt, hfor, hplace, hbelow⟩ := hstage
  by_cases hreturned : place = .returned
  · subst hreturned
    simp only [State.producerStep, hpc, Option.some.injEq,
      Prod.mk.injEq] at hstep
    obtain ⟨rfl, rfl⟩ := hstep
    have hcontinues : Continues program state
        (state.at (.coverStamp call dispatch next)) call dispatch :=
      continues_at hactive rfl (by rw [hpc]; rfl)
    refine hinv.proceed_silent hcontinues rfl (fun slot hworker => ?_)
      ⟨hsame, hpos, hlt, hfor, fun slot hle => ?_⟩
    · exact hcontinues.untouched (hinv.workerOk hworker) rfl
        (by rw [hpc]; rfl) (by rw [hpc]; rfl) (.inl rfl)
    · rcases Nat.lt_or_eq_of_le hle with hless | rfl
      · exact hbelow slot hless
      · exact hplace
  · have hrun : ∃ middle place', state.runRank program call
        dispatch.generation next place = some (middle, place', event) ∧
        after = middle.at (.cover call dispatch next place') := by
      cases place with
      | returned => exact absurd rfl hreturned
      | _ =>
          simp only [State.producerStep, hpc, Option.map_eq_some_iff,
            Prod.mk.injEq] at hstep
          obtain ⟨⟨middle, place', event'⟩, hrun, rfl, rfl⟩ := hstep
          exact ⟨middle, place', hrun, rfl⟩
    obtain ⟨middle, place', hrun, rfl⟩ := hrun
    obtain ⟨⟨counter, rfl⟩, hbooks, hright⟩ :=
      hinv.runRank hactive hlt hplace hrun
    have hcontinues : Continues program state
        ((state.setDesc (call.desc program)
          { state.descs (call.desc program) with
            nextBlock := counter }).at (.cover call dispatch next place'))
        call dispatch :=
      continues_setCounter hactive counter rfl (by rw [hpc]; rfl)
    refine ⟨⟨Function.update ranks next (some place'), hinv.proceed hcontinues
      (fun slot hworker => ?_) ⟨hsame, hpos, hlt, hfor,
        Function.update_self _ _ _, fun slot hslot => ?_⟩
      (hbooks.at _) fun e he => (hright e he).1⟩, fun e he => (hright e he).2⟩
    · refine hcontinues.untouched (hinv.workerOk hworker) rfl
        (by rw [hpc]; rfl) (by rw [hpc]; rfl) ?_
      by_cases hnext : slot = next
      · refine .inr ?_
        simp [hpc, hnext, ProducerPc.ownTurn]
      · exact .inl (Function.update_of_ne hnext _ _)
    · rw [Function.update_of_ne (Nat.ne_of_lt hslot)]
      exact hbelow slot hslot

/-- A covered slot's word lets the producer race. -/
theorem SlotInv.claims_of_covered {pool : ℕ} {job : Job} {turn : Turn}
    {place : Option RankPc} {contents : Slot}
    (hslot : SlotInv program pool job turn place contents)
    (hopened : turn ≠ .opened) (hclosed : turn ≠ .closed) :
    job.Claims program contents.mailbox := by
  by_contra hnot
  rcases (hslot.unraced hnot).2.2 with hturn | hturn
  · exact hopened hturn
  · exact hclosed hturn

/-- A word with the dispatch's phase that is not its publication is stamped or
acknowledged. -/
theorem flags_of_ne {word : Mailbox}
    (hphase : word.seenPhase = dispatch.publishedMb)
    (hne : word ≠ dispatch.publishedMb) :
    word.done = true ∨ word.acked = true := by
  obtain ⟨generation, reuse, skipClaim, done, acked⟩ := word
  by_contra hflags
  simp only [not_or, Bool.not_eq_true] at hflags
  obtain ⟨rfl, rfl⟩ := hflags
  exact hne hphase

/-- The producer stamps the word of the slot it covered. -/
theorem Inv.step_coverStamp (hinv : Inv program ranks trace state)
    (hpc : state.producer = .coverStamp call dispatch next)
    {event : Option Event}
    (hstep : state.producerStep program = some (after, event)) :
    Kept program trace after event := by
  have hactive : state.producer.active = some (call, dispatch) := by
    rw [hpc]; rfl
  have hstage := hinv.stage
  rw [hpc] at hstage
  obtain ⟨hsame, hpos, hlt, hfor, hreturned⟩ := hstage
  have hworker := hinv.hasWorker hactive hpos hlt
  have hturn : state.producer.ownTurn next = .covered := by
    rw [hpc]
    simp [ProducerPc.ownTurn]
  have hturns : ∀ slot, slot ≠ next → state.producer.ownTurn slot =
      (ProducerPc.join call dispatch next).ownTurn slot := by
    intro slot hne
    rw [hpc]
    simp [ProducerPc.ownTurn, hne]
  have hjob : ∀ slot, state.producer.newJob slot = none := by
    intro slot
    rw [hpc]
    rfl
  obtain ⟨hslot, hold, hidle, hcurrent, hreader⟩ := hinv.ownSlot hactive
    hworker (congrArg (Option.getD · _) (hjob next)) hturn
  have hphase := hcurrent (by simp)
  have hclaims := hslot.claims_of_covered (by simp) (by simp)
  simp only [State.producerStep, hpc] at hstep
  split at hstep
  next hword =>
    simp only [Option.some.injEq, Prod.mk.injEq] at hstep
    obtain ⟨rfl, rfl⟩ := hstep
    have hstamped : dispatch.doneSentinelMb =
        (state.slots (call.pool, next)).mailbox.doneVal := by
      rw [hword]
      rfl
    cases hbit : dispatch.reuseSafe with
    | true =>
        simp only [if_true]
        refine hinv.join_slot hactive (continues_setSlot hactive next _ rfl
          (by rw [hpc]; rfl)) hturns hjob (fun _ => ?_) ⟨?_, rfl, rfl⟩ hsame
          fun slot hle _ => hreturned slot hle
        · rw [hstamped]
          refine hslot.stamp hclaims .closed (.inr ⟨rfl, ?_⟩)
          rw [hword]
          exact hbit
        · rw [hword]
          rfl
    | false =>
        simp only [Bool.false_eq_true, if_false]
        have hcontinues : Continues program state
            ((state.setSlot call.pool next
              { state.slots (call.pool, next) with
                mailbox := dispatch.doneSentinelMb }).at
              (.coverMark call dispatch next)) call dispatch :=
          continues_setSlot hactive next _ rfl (by rw [hpc]; rfl)
        refine hinv.proceed_silent hcontinues rfl (fun slot hworker' => ?_)
          ⟨hsame, hpos, hlt, hfor, hbit, hreturned⟩
        by_cases hnext : slot = next
        · subst hnext
          have hmarking := hslot.stamp hclaims .marking (.inl rfl)
          rw [← hstamped] at hmarking
          refine hcontinues.touched (setSlot_self _ _ _ _) rfl
            (by simp [State.at, ProducerPc.ownTurn]) hmarking ?_ ?_
            (fun _ => rfl) ?_
          · rw [hstamped]
            exact hold
          · rw [hstamped]
            exact hidle
          · rw [hstamped]
            exact hreader
        · refine hcontinues.untouched (hinv.workerOk hworker')
            (setSlot_ne call.pool hnext _ _) (by rw [hpc]; rfl) ?_ (.inl rfl)
          simp [hpc, State.at, ProducerPc.ownTurn, hnext]
  next hword =>
    simp only [Option.some.injEq, Prod.mk.injEq] at hstep
    obtain ⟨rfl, rfl⟩ := hstep
    have hkept := hinv.join_slot hactive (continues_setSlot hactive next
      (state.slots (call.pool, next)) rfl (by rw [hpc]; rfl)) hturns hjob
      (fun _ => hslot.stamp_failed hclaims (flags_of_ne hphase hword))
      ⟨rfl, rfl, rfl⟩ hsame fun slot hle _ => hreturned slot hle
    rw [setSlot_eq_self] at hkept
    exact hkept

theorem Inv.step_coverMark (hinv : Inv program ranks trace state)
    (hpc : state.producer = .coverMark call dispatch next)
    {event : Option Event}
    (hstep : state.producerStep program = some (after, event)) :
    Kept program trace after event := by
  have hactive : state.producer.active = some (call, dispatch) := by
    rw [hpc]; rfl
  have hstage := hinv.stage
  rw [hpc] at hstage
  obtain ⟨hsame, hpos, hlt, hfor, hfull, hreturned⟩ := hstage
  have hturn : state.producer.ownTurn next = .marking := by
    rw [hpc]
    simp [ProducerPc.ownTurn]
  have hjob : ∀ slot, state.producer.newJob slot = none := by
    intro slot
    rw [hpc]
    rfl
  obtain ⟨hslot, -, -, hcurrent, -⟩ := hinv.ownSlot hactive
    (hinv.hasWorker hactive hpos hlt)
    (congrArg (Option.getD · _) (hjob next)) hturn
  have hword := (word_of_phase (hcurrent (by simp))).2.1
  simp only [State.producerStep, hpc, Option.some.injEq,
    Prod.mk.injEq] at hstep
  obtain ⟨rfl, rfl⟩ := hstep
  refine hinv.join_slot hactive (continues_setSlot hactive next _ rfl
    (by rw [hpc]; rfl)) (fun slot hne => ?_) hjob (fun _ => ?_)
    ⟨rfl, rfl, rfl⟩ hsame fun slot hle _ => hreturned slot hle
  · rw [hpc]
    simp [ProducerPc.ownTurn, hne]
  · exact hslot.mark (hslot.claims_of_covered (by simp) (by simp))
      (hword.trans hfull)

/-! ## The acknowledgements -/

/-- While the producer drains, the slots of its pool are closed. -/
theorem drains_turn {pc : ProducerPc} {pool : ℕ} (hdrains : pc.drains =
      some pool) (slot : ℕ) :
    pc.turn pool slot = .closed ∧ pc.newJob slot = none ∧
      ∀ other, other ≠ pool → pc.pool ≠ some other := by
  cases pc with
  | entryDrain call =>
      exact ⟨rfl, rfl, fun other _ => pool_of_inactive rfl other⟩
  | drain call dispatch =>
      obtain rfl : call.pool = pool := Option.some.inj hdrains
      refine ⟨?_, rfl, fun other hne => ?_⟩
      · rw [turn_of_active rfl]
        rfl
      · simp [ProducerPc.pool, ProducerPc.active, Ne.symm hne]
  | _ => simp [ProducerPc.drains] at hdrains

/-- An acknowledged slot leaves the mask. -/
theorem Inv.step_poll (hinv : Inv program ranks trace state)
    {event : Option Event}
    (hstep : state.pollStep program slot = some (after, event)) :
    Kept program trace after event := by
  simp only [State.pollStep, Option.bind_eq_some_iff] at hstep
  obtain ⟨pool, hdrains, hstep⟩ := hstep
  split at hstep
  next hpolled =>
    obtain ⟨hlt, hcold, hacked⟩ := hpolled
    simp only [Option.some.injEq, Prod.mk.injEq] at hstep
    obtain ⟨rfl, rfl⟩ := hstep
    obtain ⟨after, hafter⟩ : ∃ after, after = state.setSlot pool slot
        { state.slots (pool, slot) with coldStamped := false } := ⟨_, rfl⟩
    have hself : after.slots (pool, slot) =
        { state.slots (pool, slot) with coldStamped := false } := by
      simp [hafter, State.setSlot]
    have hne : ∀ pool' slot', (pool', slot') ≠ (pool, slot) →
        after.slots (pool', slot') = state.slots (pool', slot') := by
      intro pool' slot' hother
      rw [hafter]
      exact Function.update_of_ne hother _ _
    have hmailbox : ∀ pool' slot', (after.slots (pool', slot')).mailbox =
        (state.slots (pool', slot')).mailbox := by
      intro pool' slot'
      by_cases hsame : (pool', slot') = (pool, slot)
      · rw [Prod.mk.inj hsame |>.1, (Prod.mk.inj hsame).2, hself]
      · rw [hne pool' slot' hsame]
    have hproducer : after.producer = state.producer := by rw [hafter]; rfl
    have hdescs : after.descs = state.descs := by rw [hafter]; rfl
    have hpools : after.pools = state.pools := by rw [hafter]; rfl
    have hpublished : after.published = state.published := by rw [hafter]; rfl
    have hfor : after.filledFor = state.filledFor := by rw [hafter]; rfl
    have hjob : ∀ pool' slot', after.job pool' slot' =
        state.job pool' slot' := by
      intro pool' slot'
      simp only [State.job, hproducer, hpublished]
    obtain ⟨hturn, -, houtside⟩ := drains_turn hdrains slot
    rw [← hafter]
    suffices hnext : Inv program ranks (trace ++ (none : Option Event).toList)
        after from ⟨⟨ranks, hnext⟩, by simp⟩
    refine hinv.produce houtside (by rwa [hproducer])
      (fun pool' slot' hother => hne pool' slot' fun heq =>
        hother (Prod.mk.inj heq).1) (fun _ _ => by rw [hpublished])
      (fun _ => by rw [hpools]) ?_ (fun slot' hworker => ?_) ?_ ?_ ?_ ?_ ?_ ?_
      ?_
    · intro pool' slot' _ hworker hreader
      rw [hdescs]
      exact hinv.readers pool' slot' hworker hreader
    · obtain ⟨hslot, hold, hidle, -, hreader⟩ := hinv.workerOk hworker
      have hclosed := (drains_turn hdrains slot').1
      rw [hclosed] at hslot
      refine ⟨?_, ?_, ?_, ?_, ?_⟩
      · rw [hjob, hproducer, hclosed]
        by_cases hsame : slot' = slot
        · subst hsame
          rw [hself]
          exact hslot.poll hacked
        · rw [hne pool slot' (by simp [hsame])]
          exact hslot
      · rw [hmailbox, hpools]
        exact hold
      · rw [hmailbox]
        by_cases hsame : slot' = slot
        · subst hsame
          rw [hself]
          exact hidle
        · rw [hne pool slot' (by simp [hsame])]
          exact hidle
      · rintro call dispatch - - hopen
        rw [hproducer, hclosed] at hopen
        exact absurd rfl hopen
      · rw [hjob, hdescs]
        by_cases hsame : slot' = slot
        · subst hsame
          rw [hself]
          exact hreader
        · rw [hne pool slot' (by simp [hsame])]
          exact hreader
    · intro desc hwrites
      rw [hproducer] at hwrites
      exact (hinv.descInv hwrites).congr (by rw [hdescs]) (by rw [hfor])
        (fun _ => by rw [hpools]) hpublished
    · simpa only [PoolsOk, hpools, hpublished] using hinv.pools
    · have hok := hinv.prepares
      rw [hproducer]
      cases hpc : state.producer <;> rw [hpc] at hok hdrains <;>
        simp only [ProducerPc.drains, reduceCtorEq] at hdrains
      · exact hok
      · trivial
    · intro call dispatch hactive
      rw [hproducer] at hactive
      obtain ⟨hadmissible, hfilled, hshared, hhome, hpositive, hgeneration,
        hreuse⟩ := hinv.active call dispatch hactive
      exact ⟨hadmissible, hdescs ▸ hfilled, hshared, hfor ▸ hhome, hpositive,
        hpools ▸ hgeneration, hpools ▸ hpublished ▸ hreuse⟩
    · have hstage := hinv.stage
      rw [hproducer]
      cases hpc : state.producer <;> rw [hpc] at hstage hdrains <;>
        simp only [ProducerPc.drains, reduceCtorEq] at hdrains
      · trivial
      · simpa only [StageOk, hmailbox] using hstage
    · intro call dispatch hactive
      rw [hproducer] at hactive
      exact (hinv.books call dispatch hactive).silent (by rw [hdescs]) (by simp)
    · refine ⟨fun e hmem => ?_, fun pool' hpos => ?_⟩
      · rw [hpools]
        exact hinv.trace.old e (by simpa using hmem)
      · rw [hpublished] at hpos ⊢
        exact List.mem_append_left _ (hinv.trace.jobs pool' hpos)
  next => simp at hstep

/-! ## Leaving a share early -/

/-- The producer leaves its own share, or one it covers. -/
theorem Inv.step_producerLeaves (hinv : Inv program ranks trace state)
    {event : Option Event}
    (hstep : state.producerLeaves program = some (after, event)) :
    Kept program trace after event := by
  unfold State.producerLeaves at hstep
  cases hpc : state.producer with
  | slot0 call dispatch place =>
      have hactive : state.producer.active = some (call, dispatch) := by
        rw [hpc]; rfl
      have hstage := hinv.stage
      rw [hpc] at hstage
      obtain ⟨hsame, hplace⟩ := hstage
      simp only [hpc] at hstep
      split at hstep
      next =>
        simp only [Option.some.injEq, Prod.mk.injEq] at hstep
        obtain ⟨rfl, rfl⟩ := hstep
        have hcontinues : Continues program state
            (state.at (.slot0 call dispatch .returned)) call dispatch :=
          continues_at hactive rfl (by rw [hpc]; rfl)
        refine ⟨⟨Function.update ranks 0 (some .returned),
          hinv.proceed hcontinues (fun slot hworker => ?_)
          ⟨hsame, Function.update_self _ _ _⟩ ?_ ?_⟩, ?_⟩
        · refine hcontinues.untouched (hinv.workerOk hworker) rfl
            (by rw [hpc]; rfl) (by rw [hpc]; rfl) (.inl ?_)
          exact Function.update_of_ne (Nat.ne_of_gt hworker.2.1) _ _
        · refine (hinv.books call dispatch hactive).leave ?_
            (program.participants_pos _) hplace
          rfl
        · exact forall_shown ⟨rfl, rfl⟩
        · exact forall_shown ⟨trivial, trivial⟩
      next => simp at hstep
  | cover call dispatch next place =>
      have hactive : state.producer.active = some (call, dispatch) := by
        rw [hpc]; rfl
      have hstage := hinv.stage
      rw [hpc] at hstage
      obtain ⟨hsame, hpos, hlt, hfor, hplace, hbelow⟩ := hstage
      simp only [hpc] at hstep
      split at hstep
      next =>
        simp only [Option.some.injEq, Prod.mk.injEq] at hstep
        obtain ⟨rfl, rfl⟩ := hstep
        have hcontinues : Continues program state
            (state.at (.cover call dispatch next .returned)) call dispatch :=
          continues_at hactive rfl (by rw [hpc]; rfl)
        refine ⟨⟨Function.update ranks next (some .returned),
          hinv.proceed hcontinues (fun slot hworker => ?_)
          ⟨hsame, hpos, hlt, hfor, Function.update_self _ _ _,
            fun slot hslot => ?_⟩ ?_ ?_⟩, ?_⟩
        · refine hcontinues.untouched (hinv.workerOk hworker) rfl
            (by rw [hpc]; rfl) (by rw [hpc]; rfl) ?_
          by_cases hnext : slot = next
          · refine .inr ?_
            simp [hpc, hnext, ProducerPc.ownTurn]
          · exact .inl (Function.update_of_ne hnext _ _)
        · rw [Function.update_of_ne (Nat.ne_of_lt hslot)]
          exact hbelow slot hslot
        · refine (hinv.books call dispatch hactive).leave ?_ hlt hplace
          rfl
        · exact forall_shown ⟨rfl, rfl⟩
        · exact forall_shown ⟨trivial, trivial⟩
      next => simp at hstep
  | _ => simp [hpc] at hstep

/-! ## Every step of the producer -/

theorem Inv.producerStep (hinv : Inv program ranks trace state)
    (hallowed : DescriptorFree program state .producer) {event : Option Event}
    (hstep : state.producerStep program = some (after, event)) :
    Kept program trace after event := by
  cases hpc : state.producer with
  | idle => simp [State.producerStep, hpc] at hstep
  | entryDrain call => exact hinv.step_entryDrain hpc hallowed hstep
  | fill call remaining keyMatches =>
      cases remaining with
      | nil => exact hinv.step_compared hpc hstep
      | cons field rest => exact hinv.step_compare hpc hstep
  | shape call remaining keyMatches =>
      cases remaining with
      | nil => exact hinv.step_shaped hpc hstep
      | cons field rest => exact hinv.step_shape hpc hstep
  | counter call keyMatches => exact hinv.step_counter hpc hstep
  | begin call reuseHint => exact hinv.step_begin hpc hstep
  | drain call dispatch => exact hinv.step_drain hpc hstep
  | publishDesc call dispatch slot => exact hinv.step_publishDesc hpc hstep
  | publish call dispatch slot => exact hinv.step_publish hpc hstep
  | record call dispatch => exact hinv.step_record hpc hstep
  | enterSlot0 call dispatch => exact hinv.step_enterSlot0 hpc hstep
  | slot0 call dispatch place => exact hinv.step_slot0 hpc hstep
  | join call dispatch slot => exact hinv.step_join hpc hstep
  | cover call dispatch slot place => exact hinv.step_covering hpc hstep
  | coverStamp call dispatch slot => exact hinv.step_coverStamp hpc hstep
  | coverMark call dispatch slot => exact hinv.step_coverMark hpc hstep

end Joining

end Citor.JobCaches
