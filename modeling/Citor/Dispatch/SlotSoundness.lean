import Citor.Dispatch.WorkerLoop

/-!
# What holds of a slot whatever its worker does

The mailbox of a dispatch that nobody may cold-collapse stays as published
until the worker itself stamps it, so the plain store behind its share never
overwrites a later dispatch.  A cold-collapsed dispatch may be overtaken, and
then the compare-exchange fails.
-/

namespace Citor.WorkerLoop

open WorkerSlots (MailboxWord)

/-- The mailbox a worker is busy with, from the phase compare to its stamp. -/
def Slot.carried (slot : Slot) : Option Mailbox :=
  match slot.pc with
  | .enter mailbox | .body mailbox | .stamp mailbox | .acknowledge mailbox =>
      some mailbox
  | .chainWake mailbox =>
      if mailbox.seenPhase ≠ slot.lastSeen.seenPhase then some mailbox else none
  | _ => none

/-- Places on the way out of the main loop. -/
def WorkerPc.leaves : WorkerPc → Bool
  | .exitTest _ | .parkTest _ | .exited => true
  | _ => false

/-- Whoever publishes need not wait for this slot's worker: the rank may be
cold-collapsed, it is stamped, or there was no dispatch yet. -/
def Slot.Settled (slot : Slot) : Prop :=
  slot.mailbox.coldCollapseDispatch = true ∨ slot.mailbox.done = true ∨
    slot.mailbox.generation = 0

/-- The worker stamped the phase in the mailbox and is not busy. -/
def Slot.Finished (slot : Slot) : Prop :=
  slot.mailbox.done = true ∧ ¬ slot.Unprocessed ∧ slot.carried = none

structure SlotSound (slot : Slot) : Prop where
  running : slot.mailbox.shutdown = false ∧ slot.lastSeen.shutdown = false
  stays : slot.pc.leaves = false
  fresh : slot.mailbox.generation = 0 →
    slot.mailbox = .zero ∧ slot.lastSeen = .zero ∧ slot.carried = none
  /-- A busy worker has not processed what it is busy with. -/
  unprocessed : ∀ mailbox, slot.carried = some mailbox →
    mailbox.seenPhase ≠ slot.lastSeen.seenPhase ∧ mailbox.shutdown = false
  /-- Nobody overtakes a dispatch that may not be cold-collapsed. -/
  own : ∀ mailbox, slot.carried = some mailbox →
    mailbox.coldCollapseDispatch = false →
    slot.mailbox = mailbox ∧ mailbox.done = false
  /-- While its worker is busy, only a cold-collapse stamps a slot. -/
  covered : ∀ mailbox, slot.carried = some mailbox →
    slot.mailbox.done = true → slot.mailbox.coldCollapseDispatch = true
  stamped : slot.mailbox.done = true →
    slot.mailbox.coldCollapseDispatch = false → ¬ slot.Unprocessed

/-- How a slot changes while nobody publishes to it or cold-collapses it. -/
structure Evolves (before after : Slot) : Prop where
  sound : SlotSound after
  phase : after.mailbox.seenPhase = before.mailbox.seenPhase
  done : before.mailbox.done = true → after.mailbox.done = true
  /-- Only the worker stamps. -/
  answered : after.mailbox.done = true →
    before.mailbox.done = true ∨ after.Finished
  finished : before.Finished → after.Finished

theorem Evolves.settled {before after : Slot} (hevolves : Evolves before after)
    (hsettled : before.Settled) : after.Settled := by
  rcases hsettled with hcold | hdone | hzero
  · exact .inl (by
      rwa [MailboxWord.coldCollapseDispatch_of_seenPhase hevolves.phase])
  · exact .inr (.inl (hevolves.done hdone))
  · exact .inr (.inr (by
      rwa [(MailboxWord.of_seenPhase hevolves.phase).1]))

theorem Evolves.trans {first second third : Slot}
    (hfirst : Evolves first second) (hsecond : Evolves second third) :
    Evolves first third where
  sound := hsecond.sound
  phase := hsecond.phase.trans hfirst.phase
  done := hsecond.done ∘ hfirst.done
  answered := by
    intro hdone
    rcases hsecond.answered hdone with hbefore | hfinished
    · exact (hfirst.answered hbefore).imp_right hsecond.finished
    · exact .inr hfinished
  finished := hsecond.finished ∘ hfirst.finished

variable {slot after : Slot} {control : Control} {participants : ℕ}

theorem slotSound_fresh : SlotSound .fresh := by
  constructor <;>
    simp [Slot.fresh, MailboxWord.zero, Slot.carried, Slot.Unprocessed,
      WorkerPc.leaves]

/-- The worker moves between places where it is busy with nothing or with the
same mailbox. -/
theorem SlotSound.keep (hsound : SlotSound slot)
    (hmailbox : after.mailbox = slot.mailbox)
    (hseen : after.lastSeen = slot.lastSeen)
    (hcarried : after.carried = slot.carried)
    (hstays : after.pc.leaves = false) : Evolves slot after := by
  have hunprocessed : after.Unprocessed ↔ slot.Unprocessed := by
    rw [Slot.Unprocessed, hmailbox, hseen]
    rfl
  refine ⟨⟨?_, hstays, ?_, ?_, ?_, ?_, ?_⟩, by rw [hmailbox], ?_, ?_, ?_⟩
  · rw [hmailbox, hseen]
    exact hsound.running
  · rw [hmailbox, hseen, hcarried]
    exact hsound.fresh
  · rw [hcarried, hseen]
    exact hsound.unprocessed
  · rw [hcarried, hmailbox]
    exact hsound.own
  · rw [hcarried, hmailbox]
    exact hsound.covered
  · rw [hmailbox, hunprocessed]
    exact hsound.stamped
  · rw [hmailbox]
    exact id
  · rw [hmailbox]
    exact .inl
  · intro hfinished
    rwa [Slot.Finished, hmailbox, hunprocessed, hcarried]

/-- A worker that is busy with nothing looks at its mailbox. -/
theorem SlotSound.look (hsound : SlotSound slot) {pc : WorkerPc}
    (hidle : slot.carried = none)
    (hpc : { slot with pc := pc }.carried =
      if slot.Unprocessed then some slot.mailbox else none)
    (hstays : pc.leaves = false) : Evolves slot { slot with pc := pc } := by
  by_cases hnew : slot.Unprocessed
  · rw [if_pos hnew] at hpc
    have honly : ∀ mailbox, { slot with pc := pc }.carried = some mailbox →
        slot.mailbox = mailbox := by
      intro mailbox hmailbox
      rw [hpc] at hmailbox
      exact Option.some.inj hmailbox
    have hdone : slot.mailbox.done = true →
        slot.mailbox.coldCollapseDispatch = true := by
      intro hdone
      by_contra hwarm
      exact hsound.stamped hdone (by simpa using hwarm) hnew
    refine ⟨⟨hsound.running, hstays, ?_, ?_, ?_, ?_, hsound.stamped⟩, rfl, id,
      .inl, fun hfinished => absurd hnew hfinished.2.1⟩
    · intro hzero
      obtain ⟨hmailbox, hseen, -⟩ := hsound.fresh hzero
      exact absurd (by rw [hmailbox, hseen]) hnew
    · rintro mailbox hmailbox
      obtain rfl := honly mailbox hmailbox
      exact ⟨hnew, hsound.running.1⟩
    · intro mailbox hmailbox hwarm
      obtain rfl := honly mailbox hmailbox
      refine ⟨rfl, ?_⟩
      by_contra hstamped
      simp [hdone (by simpa using hstamped)] at hwarm
    · intro mailbox hmailbox
      exact hdone
  · rw [if_neg hnew] at hpc
    exact hsound.keep rfl rfl (hpc.trans hidle.symm) hstays

/-- The top of the loop with a mailbox that has no shutdown bit. -/
theorem examine_running {mailbox : Mailbox} (hrunning : mailbox.shutdown = false)
    (lastSeen : Mailbox) : examine lastSeen mailbox =
      if mailbox.seenPhase ≠ lastSeen.seenPhase then .enter mailbox
      else .probeDepth := by
  simp [examine, comparePhase, hrunning]

/-- The worker has seen the word it examines. -/
theorem examine_same {mailbox : Mailbox} (hrunning : mailbox.shutdown = false) :
    examine mailbox mailbox = .probeDepth := by
  simp [examine_running hrunning]

theorem examine_stays {mailbox : Mailbox} (hrunning : mailbox.shutdown = false)
    (lastSeen : Mailbox) : (examine lastSeen mailbox).leaves = false := by
  rw [examine_running hrunning]
  split <;> rfl

theorem carried_examine {mailbox : Mailbox}
    (hrunning : mailbox.shutdown = false) :
    { slot with pc := examine slot.lastSeen mailbox }.carried =
      if mailbox.seenPhase ≠ slot.lastSeen.seenPhase then some mailbox
      else none := by
  rw [examine_running hrunning]
  split <;> rfl

theorem SlotSound.examine (hsound : SlotSound slot)
    (hidle : slot.carried = none) :
    Evolves slot { slot with pc := examine slot.lastSeen slot.mailbox } :=
  hsound.look hidle (carried_examine hsound.running.1)
    (examine_stays hsound.running.1 _)

/-- A worker that chain-waked goes on with the mailbox it read before. -/
theorem SlotSound.leaveChain (hsound : SlotSound slot) {mailbox : Mailbox}
    (hpc : slot.pc = .chainWake mailbox) :
    Evolves slot { slot with
      pc := WorkerLoop.examine slot.lastSeen mailbox } := by
  have hcarried : slot.carried =
      if mailbox.seenPhase ≠ slot.lastSeen.seenPhase then some mailbox
      else none := by
    simp [Slot.carried, hpc]
  have hrunning : mailbox.shutdown = false := by
    by_cases hphase : mailbox.seenPhase = slot.lastSeen.seenPhase
    · rw [MailboxWord.shutdown_of_seenPhase hphase, hsound.running.2]
    · exact (hsound.unprocessed mailbox (by rw [hcarried, if_pos hphase])).2
  exact hsound.keep rfl rfl ((carried_examine hrunning).trans hcarried.symm)
    (examine_stays hrunning _)

theorem SlotSound.claim (hsound : SlotSound slot) {mailbox : Mailbox}
    (hpc : slot.pc = .enter mailbox) : Evolves slot (slot.claim mailbox) := by
  have hcarried : slot.carried = some mailbox := by simp [Slot.carried, hpc]
  unfold Slot.claim
  repeat' split
  all_goals exact hsound.keep rfl rfl (by rw [hcarried]; rfl) rfl

/-- A slot that its worker has just stamped. -/
theorem evolves_stamped {mailbox : Mailbox} (hsound : SlotSound slot)
    (hcarried : slot.carried = some mailbox) (hmailbox : slot.mailbox = mailbox)
    (hdone : after.mailbox.done = true)
    (hphase : after.mailbox.seenPhase = mailbox.seenPhase)
    (hseen : after.lastSeen = after.mailbox)
    (hidle : after.carried = none) (hstays : after.pc.leaves = false) :
    Evolves slot after := by
  have hprocessed : ¬ after.Unprocessed := by simp [Slot.Unprocessed, hseen]
  have hrunning : after.mailbox.shutdown = false := by
    rw [MailboxWord.shutdown_of_seenPhase hphase, ← hmailbox, hsound.running.1]
  refine ⟨⟨⟨hrunning, by rw [hseen, hrunning]⟩, hstays, ?_, ?_, ?_, ?_,
    fun _ _ => hprocessed⟩, ?_, fun _ => hdone,
    fun _ => .inr ⟨hdone, hprocessed, hidle⟩,
    fun _ => ⟨hdone, hprocessed, hidle⟩⟩
  · intro hzero
    rw [(MailboxWord.of_seenPhase hphase).1, ← hmailbox] at hzero
    simp [(hsound.fresh hzero).2.2] at hcarried
  · simp [hidle]
  · simp [hidle]
  · simp [hidle]
  · rw [hphase, hmailbox]

theorem SlotSound.stampDone (hsound : SlotSound slot) {mailbox : Mailbox}
    (hpc : slot.pc = .stamp mailbox) :
    Evolves slot (slot.stampDone mailbox) := by
  have hcarried : slot.carried = some mailbox := by simp [Slot.carried, hpc]
  have hshutdown := (hsound.unprocessed mailbox hcarried).2
  unfold Slot.stampDone
  split
  next stamped hstamp =>
    obtain ⟨hphase, hdone, hsame⟩ := MailboxWord.of_stampDone hstamp
    have hmailbox : slot.mailbox = mailbox := by
      cases hcold : mailbox.coldCollapseDispatch with
      | true => exact hsame hcold
      | false => exact (hsound.own mailbox hcarried hcold).1
    have hrunning : stamped.shutdown = false :=
      (MailboxWord.shutdown_of_seenPhase hphase).trans hshutdown
    rw [examine_same hrunning]
    apply evolves_stamped hsound hcarried hmailbox hdone hphase rfl
    all_goals split <;> rfl
  next => exact hsound.keep rfl rfl (by rw [hcarried]; rfl) rfl

/-- The lost stamp is acknowledged: the phase in the mailbox stays. -/
theorem SlotSound.acknowledge (hsound : SlotSound slot) {mailbox : Mailbox}
    (hpc : slot.pc = .acknowledge mailbox) :
    Evolves slot { slot with
      mailbox := slot.mailbox.withAck
      lastSeen := mailbox.doneAcked
      pc := .load } := by
  have hcarried : slot.carried = some mailbox := by simp [Slot.carried, hpc]
  refine ⟨⟨⟨hsound.running.1, (hsound.unprocessed mailbox hcarried).2⟩, rfl, ?_,
    ?_, ?_, ?_, ?_⟩, rfl, id, .inl, ?_⟩
  · intro hzero
    simp [(hsound.fresh hzero).2.2] at hcarried
  · simp [Slot.carried]
  · simp [Slot.carried]
  · simp [Slot.carried]
  · intro hdone hwarm
    have hcold := hsound.covered mailbox hcarried hdone
    simp [hcold] at hwarm
  · intro hfinished
    simp [hfinished.2.2] at hcarried

/-- Every step of a worker. -/
theorem SlotSound.advance (hsound : SlotSound slot)
    (hstep : slot.advance control participants = some after) :
    Evolves slot after := by
  have hstays := hsound.stays
  cases hpc : slot.pc <;>
    simp only [Slot.advance, hpc, reduceCtorEq] at hstep hstays
  case load =>
    obtain rfl := by simpa using hstep
    exact hsound.examine (by simp [Slot.carried, hpc])
  case spin =>
    split at hstep
    all_goals obtain rfl := by simpa using hstep
    · exact hsound.examine (by simp [Slot.carried, hpc])
    · exact hsound.keep rfl rfl rfl hsound.stays
  case recheck token =>
    simp only [hsound.running.1, Bool.false_eq_true, if_false] at hstep
    split at hstep
    all_goals obtain rfl := by simpa using hstep
    · exact hsound.examine (by simp [Slot.carried, hpc])
    · exact hsound.keep rfl rfl (by simp [Slot.carried, hpc]) rfl
  case woken =>
    have hidle : slot.carried = none := by simp [Slot.carried, hpc]
    split at hstep
    all_goals obtain rfl := by simpa using hstep
    · exact hsound.look hidle rfl rfl
    · exact hsound.examine hidle
  case enter mailbox =>
    obtain rfl := by simpa using hstep
    exact hsound.claim hpc
  case stamp mailbox =>
    obtain rfl := by simpa using hstep
    exact hsound.stampDone hpc
  case acknowledge mailbox =>
    obtain rfl := by simpa using hstep
    exact hsound.acknowledge hpc
  case exitTest mailbox => simp [WorkerPc.leaves] at hstays
  case parkTest token => simp [WorkerPc.leaves] at hstays
  case storeEpoch epoch reload =>
    obtain rfl := by simpa using hstep
    cases reload <;>
      exact hsound.keep rfl rfl (by simp [Slot.carried, hpc]) rfl
  all_goals
    repeat' split at hstep
  all_goals
    obtain rfl := by simpa using hstep
    exact hsound.keep rfl rfl (by simp [Slot.carried, hpc]) rfl

theorem SlotSound.refl (hsound : SlotSound slot) : Evolves slot slot :=
  hsound.keep rfl rfl rfl hsound.stays

theorem SlotSound.leaveSpin (hsound : SlotSound slot)
    (hstep : slot.leaveSpin = some after) : Evolves slot after := by
  unfold Slot.leaveSpin at hstep
  split at hstep
  next hpc =>
    obtain rfl := by simpa using hstep
    exact hsound.keep rfl rfl (by simp [Slot.carried, hpc]) rfl
  next => simp at hstep

theorem SlotSound.rouse (hsound : SlotSound slot) : Evolves slot slot.rouse := by
  unfold Slot.rouse
  split
  next hpc => exact hsound.keep rfl rfl (by simp [Slot.carried, hpc]) rfl
  next => exact hsound.refl

/-- The producer wins the rank's claim. -/
theorem SlotSound.claimed (hsound : SlotSound slot) (generation : ℕ) :
    Evolves slot { slot with claimedAt := generation } :=
  hsound.keep rfl rfl rfl hsound.stays

/-- A settled slot takes a new dispatch: whatever its worker is still busy
with may be cold-collapsed. -/
theorem SlotSound.publish (hsound : SlotSound slot) (hsettled : slot.Settled)
    {mailbox : Mailbox} (hgeneration : mailbox.generation ≠ 0)
    (hshutdown : mailbox.shutdown = false) (hdone : mailbox.done = false) :
    SlotSound { slot with mailbox := mailbox } := by
  have hcold : ∀ busy, slot.carried = some busy →
      busy.coldCollapseDispatch = true := by
    intro busy hbusy
    by_contra hwarm
    obtain ⟨rfl, hundone⟩ := hsound.own busy hbusy (by simpa using hwarm)
    rcases hsettled with hsettled | hsettled | hzero
    · exact hwarm hsettled
    · simp [hundone] at hsettled
    · simp [(hsound.fresh hzero).2.2] at hbusy
  refine ⟨⟨hshutdown, hsound.running.2⟩, hsound.stays,
    fun hzero => absurd hzero hgeneration, hsound.unprocessed, ?_, ?_, ?_⟩
  · intro busy hbusy hwarm
    have := hcold busy hbusy
    simp [hwarm] at this
  · intro busy hbusy hstamped
    simp [hdone] at hstamped
  · intro hstamped
    simp [hdone] at hstamped

/-- The producer stamps a rank that it cold-collapsed. -/
theorem SlotSound.cover (hsound : SlotSound slot)
    (hcold : slot.mailbox.coldCollapseDispatch = true)
    (hgeneration : slot.mailbox.generation ≠ 0) :
    SlotSound { slot with mailbox := slot.mailbox.doneVal } := by
  refine ⟨hsound.running, hsound.stays, fun hzero => absurd hzero hgeneration,
    hsound.unprocessed, ?_, ?_, ?_⟩
  · intro busy hbusy hwarm
    obtain ⟨rfl, -⟩ := hsound.own busy hbusy hwarm
    simp [hcold] at hwarm
  · intro busy hbusy hstamped
    exact hcold
  · intro hstamped hwarm
    simp [hcold] at hwarm

end Citor.WorkerLoop
