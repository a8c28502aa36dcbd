import Citor.Dispatch.JobSlots

/-!
# The producer's operations on a slot

A slot is published, covered, stamped, put into the cold-stamped mask and taken
out of it.  Between two dispatches a slot that is not in the mask has a worker
that is done with its last full publication; this is what lets the producer
write the next word, and its descriptor, over it.
-/

namespace Citor.JobCaches

open BlockRunners (RankPc)
open WorkerSlots (MailboxWord Mailbox)

section Turns

variable {program : Program} {pool : ℕ} {job : Job} {turn : Turn}
variable {place : Option RankPc} {slot : Slot}

/-- Only an open slot says where its rank is. -/
theorem SlotInv.replace (hinv : SlotInv program pool job turn place slot)
    (hturn : turn ≠ .opened) (place' : Option RankPc) :
    SlotInv program pool job turn place' slot :=
  { hinv with
    unclaimed := fun hclaims hless =>
      absurd (hinv.unclaimed hclaims hless).1 hturn
    unraced := fun hclaims => by
      obtain ⟨hopen, hclosed, hturns⟩ := hinv.unraced hclaims
      exact ⟨fun hbefore => absurd (hopen hbefore).1 hturn, hclosed, hturns⟩
    running := fun rankPc hrunning =>
      absurd (hinv.running rankPc hrunning).1 hturn
    left := fun _ hopen => absurd hopen hturn }

/-- Only a closed slot is in the mask. -/
theorem SlotInv.unmarked (hinv : SlotInv program pool job turn place slot)
    (hturn : turn ≠ .closed) : slot.coldStamped = false := by
  by_contra hset
  exact hturn (hinv.cold (by simpa using hset)).1

/-- A rank that claims is claimed, unless its slot is open. -/
theorem SlotInv.claimed (hinv : SlotInv program pool job turn place slot)
    (hturn : turn ≠ .opened) (hclaims : job.Claims program slot.mailbox) :
    ¬ slot.claimedAt < slot.mailbox.generation := fun hless =>
  hturn (hinv.unclaimed hclaims hless).1

/-- A share is run on an open slot only. -/
theorem SlotInv.not_running (hinv : SlotInv program pool job turn place slot)
    (hturn : turn ≠ .opened) (rankPc : RankPc) :
    slot.standing ≠ .running rankPc := fun hrunning =>
  hturn (hinv.running rankPc hrunning).1

theorem Slot.standing_finished_iff (slot : Slot) :
    slot.standing = .finished ↔ slot.worker.pc = .load ∧
      slot.worker.lastSeen.generation = slot.mailbox.generation := by
  unfold Slot.standing
  split <;> rename_i hpc <;> simp only [hpc, true_and, reduceCtorEq,
    false_and, iff_false]
  · split <;> simp_all
  · split
    · split <;> simp
    · simp
  all_goals first
    | simp
    | (split <;> simp)

/-- Between dispatches the worker of an unmarked slot is done with a full
publication. -/
theorem SlotInv.finished_of_drained
    (hinv : SlotInv program pool job .closed place slot)
    (hcold : slot.coldStamped = false) (hfull : slot.mailbox.reuse = false) :
    slot.standing = .finished := by
  by_contra hunfinished
  have := hinv.uncovered rfl hfull hunfinished
  simp [hcold] at this

/-- Between dispatches the worker of an unmarked slot has read the job. -/
theorem SlotInv.synced_of_drained
    (hinv : SlotInv program pool job .closed place slot)
    (hcold : slot.coldStamped = false) (hpos : 0 < slot.mailbox.generation) :
    Synced program job slot.worker := by
  refine hinv.synced hpos ?_
  by_cases hreuse : slot.mailbox.reuse = true
  · exact .inl hreuse
  · rw [hinv.finished_of_drained hcold (by simpa using hreuse)]
    exact .inr (by simp [Standing.Behind])

/-- `mailboxDesc` may be replaced under a drained slot. -/
theorem SlotInv.publishDesc
    (hinv : SlotInv program pool job .closed place slot)
    (hcold : slot.coldStamped = false) (desc : DescId) :
    SlotInv program pool job .closed place
      { slot with mailboxDesc := some desc } :=
  { hinv with
    pcOk := hinv.pcOk
    desc := fun hfull hbehind => by
      have hfinished := hinv.finished_of_drained hcold hfull
      have hsame : ({ slot with mailboxDesc := some desc } : Slot).standing =
          slot.standing := rfl
      rw [hsame, hfinished] at hbehind
      exact absurd hbehind (by simp [Standing.Behind]) }

/-- Between dispatches a worker that still carries a word is late for the
next. -/
theorem SlotInv.late_of_drained
    (hinv : SlotInv program pool job .closed place slot)
    (hcold : slot.coldStamped = false) {mailbox : Mailbox}
    (hcarried : slot.worker.pc.carried = some mailbox)
    (hcurrent : mailbox.generation = slot.mailbox.generation) :
    slot.Late program pool mailbox := by
  have hunfinished : slot.standing ≠ .finished := by
    rw [ne_eq, Slot.standing_finished_iff]
    rintro ⟨hpc, -⟩
    simp [hpc, WorkerPc.carried] at hcarried
  have hreuse : slot.mailbox.reuse = true := by
    by_contra hfull
    exact hunfinished
      (hinv.finished_of_drained hcold (by simpa using hfull))
  have hclaims : job.Claims program slot.mailbox := by
    by_contra hnot
    exact hunfinished ((hinv.unraced hnot).2.1 rfl)
  have hclaimed : slot.mailbox.generation ≤ slot.claimedAt := by
    exact Nat.le_of_not_lt (hinv.claimed (by simp) hclaims)
  have hphase := (hinv.carried mailbox hcarried).2 hcurrent
  refine ⟨?_, by omega, job, hinv.pool_eq,
    hinv.synced (Nat.zero_lt_of_lt (hinv.reuse hreuse)) (.inl hreuse),
    (Job.claims_congr hphase).2 hclaims⟩
  rw [(MailboxWord.of_seenPhase hphase).2.1]
  exact hreuse

/-- A new word is published on a drained slot. -/
theorem SlotInv.publish (hinv : SlotInv program pool job .closed place slot)
    (hcold : slot.coldStamped = false) {word : Mailbox} {job' : Job}
    (hnew : slot.mailbox.generation < word.generation)
    (hdone : word.done = false) (hacked : word.acked = false)
    (hpool : job'.call.pool = pool)
    (hfull : word.reuse = false → job'.generation = word.generation ∧
      slot.mailboxDesc = some (job'.desc program))
    (hreuse : word.reuse = true → job' = job ∧
      0 < slot.mailbox.generation) :
    SlotInv program pool job' .opened none { slot with mailbox := word } := by
  have hless : ∀ mailbox, slot.worker.pc.carried = some mailbox →
      mailbox.generation < word.generation := fun mailbox hcarried =>
    Nat.lt_of_le_of_lt (hinv.carried mailbox hcarried).1 hnew
  have hstale : slot.worker.lastSeen.generation < word.generation :=
    Nat.lt_of_le_of_lt hinv.seen.1 hnew
  have hlate : ∀ mailbox, slot.worker.pc.carried = some mailbox →
      (mailbox.generation ≠ slot.mailbox.generation →
        slot.Late program pool mailbox) →
      slot.Late program pool mailbox := by
    intro mailbox hcarried hother
    by_cases hcurrent : mailbox.generation = slot.mailbox.generation
    · exact hinv.late_of_drained hcold hcarried hcurrent
    · exact hother hcurrent
  have hok := hinv.pcOk
  have hreading : ∀ mailbox, slot.worker.pc.carried = some mailbox →
      mailbox.generation = slot.mailbox.generation →
      mailbox.reuse = false → False := by
    intro mailbox hcarried hcurrent hbit
    have := (hinv.late_of_drained hcold hcarried hcurrent).1
    simp [hbit] at this
  have hpcOk : ({ slot with mailbox := word } : Slot).PcOk program pool job' ∧
      ({ slot with mailbox := word } : Slot).standing = .fresh := by
    unfold Slot.PcOk Slot.standing
    unfold Slot.PcOk at hok
    cases hpc : slot.worker.pc with
    | load =>
        simp only [true_and]
        rw [if_neg (Nat.ne_of_lt hstale)]
    | enter mailbox =>
        rw [hpc] at hok
        have hcarried : slot.worker.pc.carried = some mailbox := by
          rw [hpc]; rfl
        refine ⟨fun _ => hlate mailbox hcarried hok, ?_⟩
        exact if_neg (Nat.ne_of_lt (hless mailbox hcarried))
    | readEntry mailbox desc =>
        rw [hpc] at hok
        exact (hreading mailbox (by rw [hpc]; rfl) hok.1 hok.2.1).elim
    | readBase mailbox desc workerEntry =>
        rw [hpc] at hok
        exact (hreading mailbox (by rw [hpc]; rfl) hok.1 hok.2.1).elim
    | copy mailbox remaining =>
        rw [hpc] at hok
        exact (hreading mailbox (by rw [hpc]; rfl) hok.1 hok.2.1).elim
    | claim mailbox =>
        rw [hpc] at hok
        have hcarried : slot.worker.pc.carried = some mailbox := by
          rw [hpc]; rfl
        refine ⟨fun _ => hlate mailbox hcarried hok, ?_⟩
        exact if_neg (Nat.ne_of_lt (hless mailbox hcarried))
    | body mailbox rankPc =>
        exact absurd (show slot.standing = .running rankPc by
          simp [Slot.standing, hpc]) (hinv.not_running (by simp) rankPc)
    | stamp mailbox coldCollapseDispatch =>
        have hcarried : slot.worker.pc.carried = some mailbox := by
          rw [hpc]; rfl
        have hne := Nat.ne_of_lt (hless mailbox hcarried)
        dsimp only
        rw [if_neg hne, if_neg hne]
        refine ⟨?_, rfl⟩
        rcases hinv.stamp_cases hpc with ⟨hcurrent, -, hflag⟩ |
          ⟨-, -, hislate, hflag⟩
        · have hislate := hinv.late_of_drained hcold hcarried hcurrent
          refine ⟨hislate, hflag.trans ?_⟩
          have hphase := (hinv.carried mailbox hcarried).2 hcurrent
          have hclaims : job.Claims program slot.mailbox := by
            by_contra hnot
            have := (hinv.unraced hnot).2.1 rfl
            rw [Slot.standing_finished_iff, hpc] at this
            simp at this
          simpa using (Job.claims_congr hphase).2 hclaims
        · exact ⟨hislate, hflag⟩
    | acknowledge mailbox =>
        rw [hpc] at hok
        have hcarried : slot.worker.pc.carried = some mailbox := by
          rw [hpc]; rfl
        refine ⟨fun _ => hlate mailbox hcarried hok, ?_⟩
        exact if_neg (Nat.ne_of_lt (hless mailbox hcarried))
  obtain ⟨hpcOk, hfresh⟩ := hpcOk
  have hbefore : ({ slot with mailbox := word } : Slot).standing.Before := by
    simp [hfresh, Standing.Before]
  refine ⟨hpool, fun hbit => (hfull hbit).1, ?_, ?_, ?_, ?_, hpcOk, ?_, ?_, ?_,
    ?_, ?_, ?_, ?_, ?_, ?_, ?_, ?_⟩
  · intro hbit
    obtain ⟨rfl, -⟩ := hreuse hbit
    change job'.generation < word.generation
    by_cases hold : slot.mailbox.reuse = true
    · exact (hinv.reuse hold).trans hnew
    · rw [hinv.full (by simpa using hold)]
      exact hnew
  · exact (hinv.claimedAt_le.trans hnew.le)
  · exact ⟨hstale.le, fun heq => absurd heq (Nat.ne_of_lt hstale)⟩
  · intro mailbox hcarried
    exact ⟨(hless mailbox hcarried).le,
      fun heq => absurd heq (Nat.ne_of_lt (hless mailbox hcarried))⟩
  · intro _ hword
    rcases hword with hbit | hnot
    · obtain ⟨rfl, hpos⟩ := hreuse hbit
      exact hinv.synced_of_drained hcold hpos
    · exact absurd (by simp [hfresh, Standing.Behind]) hnot
  · exact fun _ _ => ⟨rfl, rfl, hbefore⟩
  · intro _ _ hge
    have hge' : word.generation ≤ slot.claimedAt := hge
    have := hinv.claimedAt_le
    omega
  · exact fun _ => ⟨fun _ => ⟨rfl, rfl⟩, by simp, .inl rfl⟩
  · simp [hfresh]
  · simp [hfresh]
  · simp [hdone]
  · simp [hacked]
  · simp [hcold]
  · simp
  · exact fun hbit _ => (hfull hbit).2

/-- The producer takes an open rank. -/
theorem SlotInv.cover (hinv : SlotInv program pool job .opened place slot)
    (hclaims : job.Claims program slot.mailbox)
    (hwon : slot.claimedAt < slot.mailbox.generation)
    (place' : Option RankPc) :
    place = none ∧ slot.standing.Before ∧
    SlotInv program pool job .covered place'
      { slot with claimedAt := slot.mailbox.generation } := by
  obtain ⟨-, hplace, hbefore⟩ := hinv.unclaimed hclaims hwon
  have hunfinished : slot.standing ≠ .finished := by
    intro hfinished
    simp [hfinished, Standing.Before] at hbefore
  have hcold := hinv.unmarked (by simp)
  have hlate : ∀ mailbox, slot.Late program pool mailbox →
      ({ slot with claimedAt := slot.mailbox.generation } : Slot).Late
        program pool mailbox := by
    rintro mailbox ⟨hbit, hclaimed, hold⟩
    exact ⟨hbit, hclaimed.trans hwon.le, hold⟩
  refine ⟨hplace, hbefore, { hinv with
    claimedAt_le := le_rfl
    pcOk := ?_
    unclaimed := fun _ hless => absurd hless (Nat.lt_irrefl _)
    raced := fun _ _ _ => by simp
    unraced := fun hnot => absurd hclaims hnot
    running := fun rankPc hrunning => ?_
    left := fun _ hturn => by simp at hturn
    done := fun hdone _ => hinv.done hdone (.inl rfl)
    cold := fun hset => by simp [hcold] at hset
    uncovered := fun hturn => by simp at hturn }⟩
  · have hok := hinv.pcOk
    unfold Slot.PcOk at hok ⊢
    cases hpc : slot.worker.pc <;> rw [hpc] at hok <;> dsimp only at hok ⊢
    case enter | claim | acknowledge =>
      exact fun hne => hlate _ (hok hne)
    case stamp =>
      split
      next hcurrent => rw [if_pos hcurrent] at hok; exact hok
      next hne =>
        rw [if_neg hne] at hok
        exact ⟨hlate _ hok.1, hok.2⟩
    all_goals exact hok
  · have : slot.standing = .running rankPc := hrunning
    simp [this, Standing.Before] at hbefore

/-- A word whose flags change under the producer's stamp. -/
theorem SlotInv.stamp (hinv : SlotInv program pool job .covered place slot)
    (hclaims : job.Claims program slot.mailbox) (after : Turn)
    (hafter : after = .marking ∨
      after = .closed ∧ slot.mailbox.reuse = true) :
    SlotInv program pool job after place
      { slot with mailbox := slot.mailbox.doneVal } := by
  have hnotOpen : after ≠ .opened := by
    rcases hafter with rfl | ⟨rfl, -⟩ <;> simp
  have hcold := hinv.unmarked (by simp)
  exact { hinv with
    pcOk := hinv.pcOk
    unclaimed := fun hc hless => absurd hless (hinv.claimed (by simp) hc)
    raced := fun _ _ _ => hnotOpen
    unraced := fun hnot => absurd hclaims hnot
    running := fun rankPc hrunning =>
      absurd hrunning (hinv.not_running (by simp) rankPc)
    left := fun _ hopen => absurd hopen hnotOpen
    done := fun _ hturn => by
      rcases hafter with rfl | ⟨rfl, -⟩ <;> simp at hturn
    acked := hinv.acked
    cold := fun hset => by simp [hcold] at hset
    uncovered := fun hclosed hfull => by
      rcases hafter with rfl | ⟨-, hreuse⟩
      · simp at hclosed
      · simp [MailboxWord.doneVal, hreuse] at hfull
    desc := hinv.desc }

/-- The producer's stamp fails: the worker has finished, or the word was
published with the reuse bit. -/
theorem SlotInv.stamp_failed
    (hinv : SlotInv program pool job .covered place slot)
    (hclaims : job.Claims program slot.mailbox)
    (hflags : slot.mailbox.done = true ∨ slot.mailbox.acked = true) :
    SlotInv program pool job .closed place slot := by
  have hcold := hinv.unmarked (by simp)
  exact { hinv with
    unclaimed := fun hc hless => absurd hless (hinv.claimed (by simp) hc)
    raced := fun _ _ _ => by simp
    unraced := fun hnot => absurd hclaims hnot
    running := fun rankPc hrunning =>
      absurd hrunning (hinv.not_running (by simp) rankPc)
    left := fun _ hopen => by simp at hopen
    done := fun _ hturn => by simp at hturn
    cold := fun hset => by simp [hcold] at hset
    uncovered := fun _ hfull hunfinished => by
      rcases hflags with hdone | hacked
      · exact absurd (hinv.done hdone (.inr rfl)) hunfinished
      · exact absurd (hinv.acked hfull hacked) hunfinished }

/-- The slot's bit is set. -/
theorem SlotInv.mark (hinv : SlotInv program pool job .marking place slot)
    (hclaims : job.Claims program slot.mailbox)
    (hfull : slot.mailbox.reuse = false) :
    SlotInv program pool job .closed place
      { slot with coldStamped := true } :=
  { hinv with
    pcOk := hinv.pcOk
    unclaimed := fun hc hless => absurd hless (hinv.claimed (by simp) hc)
    raced := fun _ _ _ => by simp
    unraced := fun hnot => absurd hclaims hnot
    running := fun rankPc hrunning =>
      absurd hrunning (hinv.not_running (by simp) rankPc)
    left := fun _ hopen => by simp at hopen
    done := fun _ hturn => by simp at hturn
    cold := fun _ => ⟨rfl, hfull, hclaims⟩
    uncovered := fun _ _ _ => rfl }

/-- An open slot whose word is stamped is joined. -/
theorem SlotInv.join (hinv : SlotInv program pool job .opened place slot)
    (hdone : slot.mailbox.done = true) :
    place = some .returned ∧
    SlotInv program pool job .closed place slot := by
  have hfinished := hinv.done hdone (.inl rfl)
  have hcold := hinv.unmarked (by simp)
  refine ⟨hinv.left (.inr hfinished) rfl, { hinv with
    unclaimed := fun hc hless => by
      have := (hinv.unclaimed hc hless).2.2
      simp [hfinished, Standing.Before] at this
    raced := fun _ hbefore => by simp [hfinished, Standing.Before] at hbefore
    unraced := fun _ => ⟨fun hbefore => by
      simp [hfinished, Standing.Before] at hbefore, fun _ => hfinished,
      .inr rfl⟩
    running := fun rankPc hrunning => by simp [hfinished] at hrunning
    left := fun _ hopen => by simp at hopen
    done := fun _ hturn => by simp at hturn
    cold := fun hset => by simp [hcold] at hset
    uncovered := fun _ _ hunfinished => absurd hfinished hunfinished }⟩

/-- An acknowledged slot leaves the mask. -/
theorem SlotInv.poll (hinv : SlotInv program pool job .closed place slot)
    (hacked : slot.mailbox.acked = true) :
    SlotInv program pool job .closed place
      { slot with coldStamped := false } :=
  { hinv with
    pcOk := hinv.pcOk
    cold := fun hset => by simp at hset
    uncovered := fun _ hfull hunfinished =>
      absurd (hinv.acked hfull hacked) hunfinished }

end Turns

end Citor.JobCaches
