import Citor.Dispatch.JobInvariant

/-!
# A worker's step keeps the invariant

A step of a worker changes its slot and at most the block counter of the open
dispatch's descriptor.  What it leaves alone is stated once; what remains for
each step is the slot's own invariant, and the books where the step belongs to
a share.
-/

namespace Citor.JobCaches

open BlockRunners (RankPc)
open WorkerSlots (MailboxWord Dispatch)

/-! ## Events and the books -/

section Traces

variable (pool generation rank : ℕ) (front back : List Event)

theorem blocksRun_append :
    blocksRun pool generation (front ++ back) =
      blocksRun pool generation front ++ blocksRun pool generation back :=
  List.filterMap_append

theorem timesEntered_append :
    timesEntered pool generation rank (front ++ back) =
      timesEntered pool generation rank front +
        timesEntered pool generation rank back :=
  List.countP_append

theorem leftEarly_append :
    LeftEarly pool generation (front ++ back) ↔
      LeftEarly pool generation front ∨ LeftEarly pool generation back := by
  simp only [LeftEarly, List.mem_append]
  exact ⟨fun ⟨other, hmem⟩ => hmem.imp (⟨other, ·⟩) (⟨other, ·⟩),
    fun hcases => hcases.elim (fun ⟨other, hmem⟩ => ⟨other, .inl hmem⟩)
      (fun ⟨other, hmem⟩ => ⟨other, .inr hmem⟩)⟩

end Traces

/-- A step shows one event at most. -/
theorem forall_shown {motive : Event → Prop} {event : Event}
    (hevent : motive event) : ∀ e ∈ some event, motive e := by
  intro e he
  obtain rfl : event = e := by simpa using he
  exact hevent

/-- An event that no book counts. -/
def Event.Silent : Event → Prop
  | .called _ _ _ | .read _ _ _ _ _ => True
  | .entered _ _ _ _ _ | .ran _ _ _ _ _ | .left _ _ _ | .returned _ _ => False

section Books

variable {program : Program} {ranks : ℕ → Option RankPc} {trace : List Event}
variable {state after : State} {call : Call} {dispatch : Dispatch}

theorem BooksOk.silent (hbooks : BooksOk program ranks trace state call dispatch)
    (hcounter : (after.descs (call.desc program)).nextBlock =
      (state.descs (call.desc program)).nextBlock)
    {event : Option Event} (hsilent : ∀ e ∈ event, e.Silent) :
    BooksOk program ranks (trace ++ event.toList) after call dispatch := by
  have hblocks : blocksRun call.pool dispatch.generation
      (trace ++ event.toList) =
        blocksRun call.pool dispatch.generation trace := by
    rw [blocksRun_append]
    cases event with
    | none => simp [blocksRun]
    | some e =>
        have := hsilent e rfl
        cases e <;> simp_all [blocksRun, Event.Silent]
  have hentered : ∀ rank, timesEntered call.pool dispatch.generation rank
      (trace ++ event.toList) =
        timesEntered call.pool dispatch.generation rank trace := by
    intro rank
    rw [timesEntered_append]
    cases event with
    | none => simp [timesEntered]
    | some e =>
        have := hsilent e rfl
        cases e <;> simp_all [timesEntered, Event.Silent]
  have hleft : LeftEarly call.pool dispatch.generation
      (trace ++ event.toList) ↔
        LeftEarly call.pool dispatch.generation trace := by
    rw [leftEarly_append]
    cases event with
    | none => simp [LeftEarly]
    | some e =>
        have := hsilent e rfl
        cases e <;> simp_all [LeftEarly, Event.Silent]
  refine ⟨?_, ?_, List.mem_append_left _ hbooks.called, ?_⟩
  · rw [hcounter, hblocks, propext hleft]
    exact hbooks.ledger
  · intro rank hrank
    rw [hentered]
    exact hbooks.entered rank hrank
  · rw [List.mem_append, not_or]
    refine ⟨hbooks.open_, ?_⟩
    cases event with
    | none => simp
    | some e =>
        have := hsilent e rfl
        cases e <;> simp_all [Event.Silent]

/-- A share begins. -/
theorem BooksOk.enter (hbooks : BooksOk program ranks trace state call dispatch)
    (hcounter : (after.descs (call.desc program)).nextBlock =
      (state.descs (call.desc program)).nextBlock)
    {rank : ℕ} (hnone : ranks rank = none) (params : Params)
    (claimedOn : Option ℕ) :
    BooksOk program (Function.update ranks rank (some .entered))
      (trace ++ [.entered call.pool dispatch.generation rank params
        claimedOn]) after call dispatch := by
  refine ⟨?_, ?_, List.mem_append_left _ hbooks.called, ?_⟩
  · rw [hcounter]
    have hblocks : blocksRun call.pool dispatch.generation
        [.entered call.pool dispatch.generation rank params claimedOn] = [] :=
      rfl
    have hleft : ¬ LeftEarly call.pool dispatch.generation
        [.entered call.pool dispatch.generation rank params claimedOn] := by
      simp [LeftEarly]
    rw [blocksRun_append, hblocks, List.append_nil,
      propext (leftEarly_append _ _ _ _), propext (or_iff_left hleft)]
    exact hbooks.ledger.enter hnone
  · intro other hother
    rw [timesEntered_append, hbooks.entered other hother]
    by_cases hsame : other = rank
    · subst hsame
      simp [timesEntered, hnone]
    · simp [timesEntered, hsame, Ne.symm hsame]
  · simpa using hbooks.open_

/-- A rank asks for its next block. -/
theorem BooksOk.claim (hbooks : BooksOk program ranks trace state call dispatch)
    {rank : ℕ} (hrank : rank < call.participants program) {place : RankPc}
    (hplace : ranks rank = some place) {prevIdx : Option ℕ}
    (hprev : place = prevIdx.elim .entered .ran) {outcome : Option ℕ × ℕ}
    (houtcome : outcome = (call.entry program).kind.nextBlockId
      (call.shape program).blockCount (call.participants program) rank prevIdx
      (state.descs (call.desc program)).nextBlock)
    (hcounter : (after.descs (call.desc program)).nextBlock = outcome.2) :
    BooksOk program
      (Function.update ranks rank (some (outcome.1.elim .returned .claimed)))
      trace after call dispatch := by
  refine ⟨?_, ?_, hbooks.called, hbooks.open_⟩
  · rw [hcounter, houtcome]
    exact hbooks.ledger.claim hrank hplace hprev
  · intro other hother
    rw [hbooks.entered other hother]
    by_cases hsame : other = rank
    · subst hsame
      simp [hplace]
    · simp [hsame]

/-- A block is run. -/
theorem BooksOk.run (hbooks : BooksOk program ranks trace state call dispatch)
    (hcounter : (after.descs (call.desc program)).nextBlock =
      (state.descs (call.desc program)).nextBlock)
    {rank blockId : ℕ} (hrank : rank < call.participants program)
    (hplace : ranks rank = some (.claimed blockId)) (params : Params) :
    blockId ∉ blocksRun call.pool dispatch.generation trace ∧
    blockId < (call.shape program).blockCount ∧
    BooksOk program (Function.update ranks rank (some (.ran blockId)))
      (trace ++ [.ran call.pool dispatch.generation rank blockId params])
      after call dispatch := by
  obtain ⟨hnew, hlt, hledger⟩ := hbooks.ledger.run hrank hplace
  refine ⟨hnew, hlt, ?_, ?_, List.mem_append_left _ hbooks.called, ?_⟩
  · rw [hcounter]
    have hblocks : blocksRun call.pool dispatch.generation
        [.ran call.pool dispatch.generation rank blockId params] =
          [blockId] := by
      simp [blocksRun]
    have hleft : ¬ LeftEarly call.pool dispatch.generation
        [.ran call.pool dispatch.generation rank blockId params] := by
      simp [LeftEarly]
    rw [blocksRun_append, hblocks, propext (leftEarly_append _ _ _ _),
      propext (or_iff_left hleft)]
    exact hledger
  · intro other hother
    rw [timesEntered_append, hbooks.entered other hother]
    by_cases hsame : other = rank
    · subst hsame
      simp [timesEntered, hplace]
    · simp [timesEntered, hsame]
  · simpa using hbooks.open_

/-- A share is left early. -/
theorem BooksOk.leave (hbooks : BooksOk program ranks trace state call dispatch)
    (hcounter : (after.descs (call.desc program)).nextBlock =
      (state.descs (call.desc program)).nextBlock)
    {rank : ℕ} (hrank : rank < call.participants program) {place : RankPc}
    (hplace : ranks rank = some place) :
    BooksOk program (Function.update ranks rank (some .returned))
      (trace ++ [.left call.pool dispatch.generation rank]) after call
      dispatch := by
  refine ⟨?_, ?_, List.mem_append_left _ hbooks.called, ?_⟩
  · rw [hcounter]
    have hblocks : blocksRun call.pool dispatch.generation
        [.left call.pool dispatch.generation rank] = [] := rfl
    rw [blocksRun_append, hblocks, List.append_nil]
    refine hbooks.ledger.leave hrank ?_
    exact ⟨rank, List.mem_append_right _ (List.mem_singleton.2 rfl)⟩
  · intro other hother
    rw [timesEntered_append, hbooks.entered other hother]
    by_cases hsame : other = rank
    · subst hsame
      simp [timesEntered, hplace]
    · simp [timesEntered, hsame]
  · simpa using hbooks.open_

end Books

/-! ## What a worker's step leaves alone -/

/-- A worker's step writes its slot, and a block counter only while a dispatch
is open. -/
structure Moves (state after : State) (pool slot : ℕ) (contents : Slot) :
    Prop where
  producer : after.producer = state.producer
  pools : after.pools = state.pools
  filledFor : after.filledFor = state.filledFor
  published : after.published = state.published
  slots : after.slots = Function.update state.slots (pool, slot) contents
  fields : ∀ desc, (after.descs desc).fields = (state.descs desc).fields
  counters : state.producer.active = none → after.descs = state.descs

/-- What the slot keeps for the producer. -/
structure Quiet (old contents : Slot) : Prop where
  phase : contents.mailbox.seenPhase = old.mailbox.seenPhase
  mailboxDesc : contents.mailboxDesc = old.mailboxDesc
  coldStamped : contents.coldStamped = old.coldStamped
  reader : contents.Reader → old.Reader

section Frames

variable {program : Program} {state after : State} {pool slot : ℕ}
variable {contents : Slot}

theorem moves_setSlot (state : State) (pool slot : ℕ) (contents : Slot) :
    Moves state (state.setSlot pool slot contents) pool slot contents :=
  ⟨rfl, rfl, rfl, rfl, rfl, fun _ => rfl, fun _ => rfl⟩

theorem Moves.job_eq (hmoves : Moves state after pool slot contents) :
    after.job = state.job := by
  funext other rank
  simp only [State.job, hmoves.producer, hmoves.published]

theorem Moves.descInv (hmoves : Moves state after pool slot contents)
    {desc : DescId} (hdesc : DescInv program state desc) :
    DescInv program after desc := by
  simpa only [DescInv, hmoves.fields, hmoves.filledFor, hmoves.pools,
    hmoves.published] using hdesc

theorem Moves.of_slots (hmoves : Moves state after pool slot contents)
    {motive : ℕ → ℕ → Slot → Prop} (hself : motive pool slot contents)
    (hother : ∀ pool' slot', motive pool' slot' (state.slots (pool', slot')))
    (pool' slot' : ℕ) : motive pool' slot' (after.slots (pool', slot')) := by
  rw [hmoves.slots]
  by_cases hsame : (pool', slot') = (pool, slot)
  · obtain ⟨rfl, rfl⟩ : pool' = pool ∧ slot' = slot := by simpa using hsame
    rw [Function.update_self]
    exact hself
  · rw [Function.update_of_ne hsame]
    exact hother pool' slot'

theorem Moves.unread (hmoves : Moves state after pool slot contents)
    (hquiet : Quiet (state.slots (pool, slot)) contents) {desc : DescId}
    (hunread : Unread program state desc) : Unread program after desc := by
  intro pool' slot'
  rw [hmoves.job_eq]
  refine hmoves.of_slots (motive := fun pool' slot' contents =>
    program.HasWorker pool' slot' → contents.Reader →
      (state.job pool' slot').desc program ≠ desc) ?_ ?_ pool' slot'
  · exact fun hworker hreader => hunread pool slot hworker
      (hquiet.reader hreader)
  · exact fun pool' slot' => hunread pool' slot'

theorem Moves.prepares (hmoves : Moves state after pool slot contents)
    (hquiet : Quiet (state.slots (pool, slot)) contents)
    (hprepares : PreparesOk program state state.producer) :
    PreparesOk program after after.producer := by
  rw [hmoves.producer]
  have hdesc : ∀ {desc}, DescInv program state desc →
      DescInv program after desc := hmoves.descInv
  have hunread : ∀ {desc}, Unread program state desc →
      Unread program after desc := hmoves.unread hquiet
  have hhome : ∀ {call remaining}, HomeOk program state call remaining →
      HomeOk program after call remaining := by
    intro call remaining hhome
    simpa only [HomeOk, hmoves.pools, hmoves.fields, hmoves.filledFor]
      using hhome
  cases hpc : state.producer with
  | fill call remaining keyMatches =>
      rw [hpc] at hprepares
      obtain ⟨hadmissible, hread, hfilled, hkey⟩ := hprepares
      exact ⟨hadmissible, hunread hread, by simpa only [hmoves.fields],
        fun hmatches => ⟨hdesc (hkey hmatches).1, hhome (hkey hmatches).2⟩⟩
  | shape call remaining keyMatches =>
      rw [hpc] at hprepares
      obtain ⟨hadmissible, hfor, hread, hfilled, hkey⟩ := hprepares
      exact ⟨hadmissible, hfor, hunread hread, by simpa only [hmoves.fields],
        fun hmatches => hdesc (hkey hmatches)⟩
  | counter call keyMatches =>
      rw [hpc] at hprepares
      obtain ⟨hadmissible, hfor, hfilled, hkey⟩ := hprepares
      exact ⟨hadmissible, hfor, by simpa only [hmoves.fields],
        fun hmatches => hdesc (hkey hmatches)⟩
  | begin call reuseHint =>
      rw [hpc] at hprepares
      obtain ⟨hadmissible, hfilled, hshared, hcounter, hkey⟩ := hprepares
      refine ⟨hadmissible, by simpa only [hmoves.fields], hshared, ?_,
        fun hmatches => ⟨hdesc (hkey hmatches).1, hhome (hkey hmatches).2⟩⟩
      rw [CounterOk, hmoves.counters (by rw [hpc]; rfl)]
      exact hcounter
  | entryDrain call =>
      rw [hpc] at hprepares
      exact hprepares
  | _ => trivial

/-- A slot whose turn has come belongs to the open dispatch. -/
theorem turn_ne_closed {pc : ProducerPc} (hturn : pc.turn pool slot ≠ .closed) :
    ∃ call dispatch, pc.active = some (call, dispatch) ∧ call.pool = pool ∧
      pc.ownTurn slot = pc.turn pool slot := by
  unfold ProducerPc.turn at hturn ⊢
  split at hturn
  next hpool =>
    rw [ProducerPc.pool, Option.map_eq_some_iff] at hpool
    obtain ⟨⟨call, dispatch⟩, hactive, rfl⟩ := hpool
    refine ⟨call, dispatch, hactive, rfl, ?_⟩
    simp [ProducerPc.pool, hactive]
  next => exact absurd rfl hturn

theorem StageOk.moves {ranks : ℕ → Option RankPc}
    (hmoves : Moves state after pool slot contents)
    (hquiet : Quiet (state.slots (pool, slot)) contents)
    (hstage : StageOk program ranks state state.producer) :
    StageOk program ranks after after.producer := by
  rw [hmoves.producer]
  have hgen : ∀ pool' slot', (after.slots (pool', slot')).mailbox.generation =
      (state.slots (pool', slot')).mailbox.generation :=
    hmoves.of_slots (motive := fun pool' slot' contents =>
        contents.mailbox.generation =
          (state.slots (pool', slot')).mailbox.generation)
      (MailboxWord.of_seenPhase hquiet.phase).1 fun _ _ => rfl
  have hcold : ∀ pool' slot', (after.slots (pool', slot')).coldStamped =
      (state.slots (pool', slot')).coldStamped :=
    hmoves.of_slots (motive := fun pool' slot' contents =>
        contents.coldStamped = (state.slots (pool', slot')).coldStamped)
      hquiet.coldStamped fun _ _ => rfl
  have hdesc : ∀ pool' slot', (after.slots (pool', slot')).mailboxDesc =
      (state.slots (pool', slot')).mailboxDesc :=
    hmoves.of_slots (motive := fun pool' slot' contents =>
        contents.mailboxDesc = (state.slots (pool', slot')).mailboxDesc)
      hquiet.mailboxDesc fun _ _ => rfl
  have hunpublished : ∀ call dispatch next,
      Unpublished program state call dispatch next →
      Unpublished program after call dispatch next := by
    intro call dispatch next hready
    simpa only [Unpublished, hgen, hcold] using hready
  cases hpc : state.producer with
  | drain call dispatch =>
      rw [hpc] at hstage
      simpa only [StageOk, hgen] using hstage
  | publishDesc call dispatch next =>
      rw [hpc] at hstage
      obtain ⟨hpos, hnext, hfull, hready, hranks⟩ := hstage
      exact ⟨hpos, hnext, hfull, hunpublished _ _ _ hready, hranks⟩
  | publish call dispatch next =>
      rw [hpc] at hstage
      obtain ⟨hpos, hnext, hready, hwired, hranks⟩ := hstage
      exact ⟨hpos, hnext, hunpublished _ _ _ hready,
        by simpa only [hdesc] using hwired, hranks⟩
  | enterSlot0 call dispatch | slot0 call dispatch place
  | join call dispatch next | cover call dispatch next place
  | coverStamp call dispatch next | coverMark call dispatch next =>
      rw [hpc] at hstage
      simpa only [StageOk, hmoves.published] using hstage
  | record call dispatch =>
      rw [hpc] at hstage
      exact hstage
  | _ => trivial

/-- An open slot's rank is not yet settled in the producer's place. -/
theorem StageOk.update {ranks : ℕ → Option RankPc} {pc : ProducerPc}
    (hstage : StageOk program ranks state pc) (hslot : 0 < slot)
    (hturn : pc.ownTurn slot = .opened) (place : Option RankPc) :
    StageOk program (Function.update ranks slot place) state pc := by
  have hother : ∀ {rank}, rank ≠ slot →
      Function.update ranks slot place rank = ranks rank := fun hne =>
    Function.update_of_ne hne _ _
  cases pc with
  | publishDesc call dispatch next =>
      have hlt : slot < next := by
        by_contra hge
        simp [ProducerPc.ownTurn, hge] at hturn
      obtain ⟨hpos, hnext, hfull, hready, hzero, hnone⟩ := hstage
      refine ⟨hpos, hnext, hfull, hready, ?_, fun rank hrank => ?_⟩
      · rw [hother (by omega)]; exact hzero
      · rw [hother (by omega)]; exact hnone rank hrank
  | publish call dispatch next =>
      have hlt : slot < next := by
        by_contra hge
        simp [ProducerPc.ownTurn, hge] at hturn
      obtain ⟨hpos, hnext, hready, hdesc, hzero, hnone⟩ := hstage
      refine ⟨hpos, hnext, hready, hdesc, ?_, fun rank hrank => ?_⟩
      · rw [hother (by omega)]; exact hzero
      · rw [hother (by omega)]; exact hnone rank hrank
  | record call dispatch =>
      exact ⟨hstage.1, by rw [hother (by omega)]; exact hstage.2⟩
  | enterSlot0 call dispatch =>
      exact ⟨hstage.1, by rw [hother (by omega)]; exact hstage.2⟩
  | slot0 call dispatch place' =>
      exact ⟨hstage.1, by rw [hother (by omega)]; exact hstage.2⟩
  | join call dispatch next =>
      have hge : ¬ slot < next := by
        intro hlt
        simp [ProducerPc.ownTurn, hlt] at hturn
      refine ⟨hstage.1, hstage.2.1, fun rank hrank hparticipant => ?_⟩
      rw [hother (by omega)]
      exact hstage.2.2 rank hrank hparticipant
  | cover call dispatch next place' =>
      have hgt : next < slot := by
        by_contra hle
        by_cases hlt : slot < next
        · simp [ProducerPc.ownTurn, hlt] at hturn
        · have : slot = next := by omega
          simp [ProducerPc.ownTurn, this] at hturn
      obtain ⟨hsame, hpos, hnext, hfor, hplace, hreturned⟩ := hstage
      refine ⟨hsame, hpos, hnext, hfor, ?_, fun rank hrank => ?_⟩
      · rw [hother (by omega)]; exact hplace
      · rw [hother (by omega)]; exact hreturned rank hrank
  | coverStamp call dispatch next =>
      have hgt : next < slot := by
        by_contra hle
        by_cases hlt : slot < next
        · simp [ProducerPc.ownTurn, hlt] at hturn
        · have : slot = next := by omega
          simp [ProducerPc.ownTurn, this] at hturn
      obtain ⟨hsame, hpos, hnext, hfor, hreturned⟩ := hstage
      refine ⟨hsame, hpos, hnext, hfor, fun rank hrank => ?_⟩
      rw [hother (by omega)]
      exact hreturned rank hrank
  | coverMark call dispatch next =>
      have hgt : next < slot := by
        by_contra hle
        by_cases hlt : slot < next
        · simp [ProducerPc.ownTurn, hlt] at hturn
        · have : slot = next := by omega
          simp [ProducerPc.ownTurn, this] at hturn
      obtain ⟨hsame, hpos, hnext, hfor, hfull, hreturned⟩ := hstage
      refine ⟨hsame, hpos, hnext, hfor, hfull, fun rank hrank => ?_⟩
      rw [hother (by omega)]
      exact hreturned rank hrank
  | _ => simp [ProducerPc.ownTurn] at hturn

/-- A worker's step keeps the invariant, given its slot's and the books. -/
theorem Inv.worker {ranks ranks' : ℕ → Option RankPc} {trace : List Event}
    (hinv : Inv program ranks trace state)
    (hworker : program.HasWorker pool slot)
    (hmoves : Moves state after pool slot contents)
    (hquiet : Quiet (state.slots (pool, slot)) contents)
    (hidle : contents.mailbox.generation = 0 → contents.worker.pc = .load)
    (hslot : SlotInv program pool (state.job pool slot)
      (state.producer.turn pool slot) (ranks' slot) contents)
    (hranks : ranks' = ranks ∨ state.producer.turn pool slot = .opened ∧
      ∃ place, ranks' = Function.update ranks slot place)
    {event : Option Event}
    (hevent : ∀ e ∈ event, e.pool = pool ∧
      e.generation ≤ (state.pools pool).generation)
    (hbooks : ∀ call dispatch,
      state.producer.active = some (call, dispatch) →
      BooksOk program ranks' (trace ++ event.toList) after call dispatch) :
    Inv program ranks' (trace ++ event.toList) after := by
  have hgen : ∀ pool' slot', (after.slots (pool', slot')).mailbox.seenPhase =
      (state.slots (pool', slot')).mailbox.seenPhase :=
    hmoves.of_slots (motive := fun pool' slot' contents =>
        contents.mailbox.seenPhase =
          (state.slots (pool', slot')).mailbox.seenPhase)
      hquiet.phase fun _ _ => rfl
  refine ⟨?_, ⟨?_, ?_, ?_⟩, ?_, ?_, ?_,
    hmoves.prepares hquiet hinv.prepares, ?_, ?_, ?_, ⟨?_, ?_⟩⟩
  · intro pool' slot' hworker'
    rw [hmoves.job_eq, hmoves.producer, hmoves.slots]
    by_cases hsame : (pool', slot') = (pool, slot)
    · obtain ⟨rfl, rfl⟩ : pool' = pool ∧ slot' = slot := by simpa using hsame
      rw [Function.update_self]
      exact hslot
    · rw [Function.update_of_ne hsame]
      have hold := hinv.slots pool' slot' hworker'
      rcases hranks with rfl | ⟨hturn, place, rfl⟩
      · exact hold
      · by_cases hslot' : slot' = slot
        · subst hslot'
          have hother : pool' ≠ pool := fun heq => hsame (by rw [heq])
          refine hold.replace ?_ _
          obtain ⟨call, dispatch, hactive, rfl, -⟩ :=
            turn_ne_closed (by rw [hturn]; simp)
          have hpool : state.producer.pool ≠ some pool' := by
            simp [ProducerPc.pool, hactive, Ne.symm hother]
          simp [ProducerPc.turn, hpool]
        · rw [Function.update_of_ne hslot']
          exact hold
  · intro pool' slot' hworker'
    rw [(MailboxWord.of_seenPhase (hgen pool' slot')).1, hmoves.pools]
    exact hinv.words.old pool' slot' hworker'
  · refine fun pool' slot' => hmoves.of_slots
      (motive := fun pool' slot' contents => program.HasWorker pool' slot' →
        contents.mailbox.generation = 0 → contents.worker.pc = .load)
      (fun _ => hidle) hinv.words.idle pool' slot'
  · intro call dispatch slot' hactive hworker' hturn
    rw [hmoves.producer] at hactive hturn
    rw [hgen]
    exact hinv.words.current call dispatch slot' hactive hworker' hturn
  · intro pool' slot'
    rw [hmoves.job_eq, hmoves.fields]
    refine hmoves.of_slots (motive := fun pool' slot' contents =>
      program.HasWorker pool' slot' → contents.Reader →
        Filled program (state.job pool' slot').call (state.descs
          ((state.job pool' slot').desc program)).fields) ?_ ?_ pool' slot'
    · exact fun hworker' hreader => hinv.readers pool slot hworker'
        (hquiet.reader hreader)
    · exact hinv.readers
  · intro desc hwrites
    rw [hmoves.producer] at hwrites
    exact hmoves.descInv (hinv.descs desc hwrites)
  · intro pool' desc
    rw [hmoves.pools, hmoves.published]
    exact hinv.pools pool' desc
  · intro call dispatch hactive
    rw [hmoves.producer] at hactive
    obtain ⟨hadmissible, hfilled, hshared, hhome, hpositive, hdispatch,
      hreuse⟩ := hinv.active call dispatch hactive
    refine ⟨hadmissible, ?_, hshared, ?_, hpositive, ?_, ?_⟩
    · rw [hmoves.fields]; exact hfilled
    · rw [hmoves.filledFor]; exact hhome
    · rw [hmoves.pools]; exact hdispatch
    · rw [hmoves.pools, hmoves.published]; exact hreuse
  · have hstage := StageOk.moves hmoves hquiet hinv.stage
    rcases hranks with rfl | ⟨hturn, place, rfl⟩
    · exact hstage
    · refine hstage.update hworker.2.1 ?_ place
      obtain ⟨call, dispatch, hactive, -, hown⟩ :=
        turn_ne_closed (by rw [hturn]; simp)
      rw [hmoves.producer, hown, hturn]
  · intro call dispatch hactive
    rw [hmoves.producer] at hactive
    exact hbooks call dispatch hactive
  · intro e hmem
    rw [hmoves.pools]
    rcases List.mem_append.1 hmem with hold | hnew
    · exact hinv.trace.old e hold
    · obtain ⟨hpool, hle⟩ := hevent e (by simpa using hnew)
      rw [hpool]
      exact hle
  · intro pool' hpos
    rw [hmoves.published] at hpos ⊢
    exact List.mem_append_left _ (hinv.trace.jobs pool' hpos)

end Frames

end Citor.JobCaches
