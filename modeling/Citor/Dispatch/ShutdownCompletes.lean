import Citor.Core.Fairness
import Citor.Dispatch.Shutdown

/-!
# Shutdown completes

Between the stamp and its exit a worker can lose neither the stamp nor its
way: what it may still be busy with are ranks it has lost.  Behind the wake
every step brings some worker closer to its exit.
-/

namespace Citor.Shutdown

open Citor.Interleaving
open Citor.WorkerLoop
open WorkerSlots (MailboxWord tryClaimRank)

variable {participants index : ℕ} {control : Control} {closer : CloserPc}
variable {slot after : Slot}

/-! ## What holds of a worker -/

/-- What the place of a worker tells about the rest. -/
structure PlaceSound (control : Control) (closer : CloserPc) (pc : WorkerPc) :
    Prop where
  idle : ∀ mailbox, pc ≠ .body mailbox
  chained : ∀ mailbox, pc = .chainWake mailbox → mailbox.shutdown = false
  token : ∀ token, pc = .recheck token ∨ pc = .wait token →
    token ≤ control.futexWord
  fresh : closer.bumped = true → ∀ token, pc = .wait token →
    token < control.futexWord
  awake : closer.woke = true → pc ≠ .asleep

structure SlotInv (control : Control) (closer : CloserPc) (index : ℕ)
    (slot : Slot) : Prop where
  seen : slot.lastSeen.shutdown = false
  leaving : slot.pc.leaves = true → slot.mailbox.shutdown = true
  cleared : slot.mailbox.shutdown = true → control.activeJob = false
  stamped : closer.stamped index → slot.mailbox.shutdown = true
  late : slot.mailbox.shutdown = false →
    slot.Unprocessed ∨ slot.carried ≠ none → Lost slot slot.mailbox
  carrying : ∀ mailbox, slot.carried = some mailbox →
    mailbox.shutdown = false ∧ Lost slot mailbox
  place : PlaceSound control closer slot.pc

/-- Places that say nothing about the rest. -/
def plain : WorkerPc → Bool
  | .body _ | .chainWake _ | .recheck _ | .wait _ | .asleep => false
  | _ => true

theorem placeSound_plain {pc : WorkerPc} (hplain : plain pc = true) :
    PlaceSound control closer pc := by
  constructor <;> cases pc <;> simp_all [plain]

theorem plain_examine (lastSeen mailbox : Mailbox) :
    plain (examine lastSeen mailbox) = true := by
  unfold examine comparePhase
  repeat' split
  all_goals rfl

/-- The worker moves and keeps what it is busy with. -/
theorem SlotInv.keep (hinv : SlotInv control closer index slot)
    (hwords : after.mailbox = slot.mailbox ∧ after.lastSeen = slot.lastSeen ∧
      after.claimedAt = slot.claimedAt)
    (hcarried : after.carried = slot.carried)
    (hleaving : after.pc.leaves = true → slot.mailbox.shutdown = true)
    (hplace : PlaceSound control closer after.pc) :
    SlotInv control closer index after := by
  obtain ⟨hmailbox, hseen, hclaimed⟩ := hwords
  refine ⟨hseen ▸ hinv.seen, hmailbox ▸ hleaving, hmailbox ▸ hinv.cleared,
    hmailbox ▸ hinv.stamped, ?_, ?_, hplace⟩
  · simpa [Slot.Unprocessed, Lost, hmailbox, hseen, hclaimed, hcarried] using
      hinv.late
  · simpa [Lost, hclaimed, hcarried] using hinv.carrying

/-- The worker looks at its mailbox. -/
theorem SlotInv.examine (hinv : SlotInv control closer index slot)
    (hidle : slot.carried = none) :
    SlotInv control closer index
      { slot with pc := examine slot.lastSeen slot.mailbox } := by
  have hplace : PlaceSound control closer
      (WorkerLoop.examine slot.lastSeen slot.mailbox) :=
    placeSound_plain (plain_examine slot.lastSeen slot.mailbox)
  cases hstamp : slot.mailbox.shutdown with
  | true =>
      have hexit : WorkerLoop.examine slot.lastSeen slot.mailbox =
          .exitTest slot.mailbox := by
        simp [WorkerLoop.examine, hstamp]
      rw [hexit] at hplace ⊢
      exact hinv.keep ⟨rfl, rfl, rfl⟩ (by rw [hidle]; rfl) (fun _ => hstamp) hplace
  | false =>
      have hcarried :
          { slot with
            pc := WorkerLoop.examine slot.lastSeen slot.mailbox }.carried =
            if slot.mailbox.seenPhase ≠ slot.lastSeen.seenPhase then
              some slot.mailbox
            else none :=
        carried_examine hstamp
      refine ⟨hinv.seen, ?_, hinv.cleared, hinv.stamped, ?_, ?_, hplace⟩
      · simp [examine_stays hstamp]
      · rintro - (hnew | hbusy)
        · exact hinv.late hstamp (.inl hnew)
        · rw [hcarried] at hbusy
          exact hinv.late hstamp (.inl (by
            simpa [Slot.Unprocessed] using hbusy))
      · intro mailbox hmailbox
        rw [hcarried] at hmailbox
        split at hmailbox
        next hnew =>
          obtain rfl := Option.some.inj hmailbox
          exact ⟨hstamp, hinv.late hstamp (.inl hnew)⟩
        next => cases hmailbox

/-- A worker that chain-waked goes on with the mailbox it read before. -/
theorem SlotInv.leaveChain (hinv : SlotInv control closer index slot)
    {mailbox : Mailbox} (hpc : slot.pc = .chainWake mailbox) :
    SlotInv control closer index
      { slot with pc := WorkerLoop.examine slot.lastSeen mailbox } := by
  have hrunning := hinv.place.chained mailbox hpc
  refine hinv.keep ⟨rfl, rfl, rfl⟩ ?_ ?_ (placeSound_plain (plain_examine _ _))
  · rw [carried_examine hrunning]
    simp [Slot.carried, hpc]
  · simp [examine_stays hrunning]

theorem not_tryClaimRank {mailbox : Mailbox} (hlost : Lost slot mailbox) :
    tryClaimRank slot.claimedAt mailbox.generation = false := by
  simpa [tryClaimRank] using hlost.2

/-- A late worker loses its rank's claim. -/
theorem SlotInv.claim (hinv : SlotInv control closer index slot)
    {mailbox : Mailbox} (hpc : slot.pc = .enter mailbox) :
    slot.claim mailbox = { slot with pc := .stamp mailbox } ∧
      SlotInv control closer index { slot with pc := .stamp mailbox } := by
  have hcarried : slot.carried = some mailbox := by simp [Slot.carried, hpc]
  have hlost := (hinv.carrying mailbox hcarried).2
  refine ⟨by simp [Slot.claim, hlost.1, not_tryClaimRank hlost], ?_⟩
  exact hinv.keep ⟨rfl, rfl, rfl⟩ (by rw [hcarried]; rfl) (by simp [WorkerPc.leaves])
    (placeSound_plain rfl)

/-- A late worker stamps by compare-exchange, which a stamped mailbox
refuses. -/
theorem SlotInv.stampDone (hinv : SlotInv control closer index slot)
    {mailbox : Mailbox} (hpc : slot.pc = .stamp mailbox) :
    SlotInv control closer index (slot.stampDone mailbox) := by
  have hcarried : slot.carried = some mailbox := by simp [Slot.carried, hpc]
  obtain ⟨hrunning, hlost⟩ := hinv.carrying mailbox hcarried
  simp only [Slot.stampDone, hlost.1, if_true]
  split
  next stamped hstamp =>
    obtain ⟨hphase, -, hsame⟩ := MailboxWord.of_stampDone hstamp
    have hstays : stamped.shutdown = false :=
      (MailboxWord.shutdown_of_seenPhase hphase).trans hrunning
    rw [examine_same hstays]
    refine ⟨hstays, by simp [WorkerPc.leaves], ?_, ?_, ?_, ?_,
      placeSound_plain rfl⟩
    · simp [hstays]
    · intro hstamped
      have := hinv.stamped hstamped
      simp [hsame rfl, hrunning] at this
    · simp [Slot.Unprocessed, Slot.carried]
    · simp [Slot.carried]
  next =>
    exact hinv.keep ⟨rfl, rfl, rfl⟩ (by rw [hcarried]; rfl) (by simp [WorkerPc.leaves])
      (placeSound_plain rfl)

theorem SlotInv.acknowledge (hinv : SlotInv control closer index slot)
    {mailbox : Mailbox} (hpc : slot.pc = .acknowledge mailbox) :
    SlotInv control closer index { slot with
      mailbox := slot.mailbox.withAck
      lastSeen := mailbox.doneAcked
      pc := .load } := by
  have hcarried : slot.carried = some mailbox := by simp [Slot.carried, hpc]
  refine ⟨(hinv.carrying mailbox hcarried).1, by simp [WorkerPc.leaves],
    hinv.cleared, hinv.stamped, ?_, by simp [Slot.carried], placeSound_plain rfl⟩
  exact fun hrunning _ => hinv.late hrunning (.inr (by simp [hcarried]))

/-- Behind the bump every mailbox is stamped. -/
theorem stamped_of_bumped (hbumped : closer.bumped = true) (index : ℕ) :
    closer.stamped index := by
  cases closer <;> simp_all [CloserPc.bumped, CloserPc.stamped]

theorem bumped_of_woke (hwoke : closer.woke = true) :
    closer.bumped = true := by
  cases closer <;> simp_all [CloserPc.bumped, CloserPc.woke]

/-- A worker about to park has seen its mailbox without the stamp. -/
theorem SlotInv.park (hinv : SlotInv control closer index slot)
    {token : ℕ} (hpc : slot.pc = .recheck token)
    (hsame : slot.mailbox = slot.lastSeen) :
    SlotInv control closer index { slot with pc := .wait token } := by
  refine hinv.keep ⟨rfl, rfl, rfl⟩ (by simp [Slot.carried, hpc]) (by simp [WorkerPc.leaves])
    ⟨by simp, by simp, ?_, ?_, by simp⟩
  · rintro other (hother | hother)
    · cases hother
    · exact hinv.place.token other (.inl (by simpa [hpc] using hother))
  · intro hbumped
    have hstamp := hinv.stamped (stamped_of_bumped hbumped index)
    rw [hsame, hinv.seen] at hstamp
    cases hstamp

/-- A worker's step, entering with a new phase apart. -/
theorem SlotInv.advance (hinv : SlotInv control closer index slot)
    (hstep : slot.advance control participants = some after)
    (henter : ∀ mailbox, slot.pc ≠ .enter mailbox) :
    SlotInv control closer index after := by
  have hleaves : slot.pc.leaves = true → control.activeJob = false :=
    fun hleaves => hinv.cleared (hinv.leaving hleaves)
  cases hpc : slot.pc <;>
    simp only [Slot.advance, hpc, reduceCtorEq] at hstep
  case load =>
    obtain rfl := by simpa using hstep
    exact hinv.examine (by simp [Slot.carried, hpc])
  case exitTest mailbox =>
    have hjob := hleaves (by rw [hpc]; rfl)
    simp only [hjob, Bool.false_eq_true, if_false, Option.some.injEq] at hstep
    subst hstep
    exact hinv.keep ⟨rfl, rfl, rfl⟩ (by simp [Slot.carried, hpc])
      (fun _ => hinv.leaving (by rw [hpc]; rfl)) (placeSound_plain rfl)
  case enter mailbox => exact absurd hpc (henter mailbox)
  case body mailbox => exact absurd hpc (hinv.place.idle mailbox)
  case stamp mailbox =>
    obtain rfl := by simpa using hstep
    exact hinv.stampDone hpc
  case acknowledge mailbox =>
    obtain rfl := by simpa using hstep
    exact hinv.acknowledge hpc
  case parkTest token =>
    have hjob := hleaves (by rw [hpc]; rfl)
    simp only [hjob, Bool.false_eq_true, if_false, Option.some.injEq] at hstep
    subst hstep
    exact hinv.keep ⟨rfl, rfl, rfl⟩ (by simp [Slot.carried, hpc])
      (fun _ => hinv.leaving (by rw [hpc]; rfl)) (placeSound_plain rfl)
  case spin =>
    split at hstep
    all_goals obtain rfl := by simpa using hstep
    · exact hinv.examine (by simp [Slot.carried, hpc])
    · exact hinv
  case recheck token =>
    split at hstep
    next =>
      obtain rfl := by simpa using hstep
      exact hinv.examine (by simp [Slot.carried, hpc])
    next hsame =>
      rw [ne_eq, not_not] at hsame
      have hrunning : slot.mailbox.shutdown = false := by
        rw [hsame, hinv.seen]
      simp only [hrunning, Bool.false_eq_true, if_false, Option.some.injEq]
        at hstep
      subst hstep
      exact hinv.park hpc hsame
  case loadToken =>
    obtain rfl := by simpa using hstep
    refine hinv.keep ⟨rfl, rfl, rfl⟩ (by simp [Slot.carried, hpc]) (by simp [WorkerPc.leaves])
      ⟨by simp, by simp, ?_, by simp, by simp⟩
    rintro token (htoken | htoken)
    · exact (WorkerPc.recheck.inj htoken).ge
    · cases htoken
  case wait token =>
    split at hstep
    next hword =>
      obtain rfl := by simpa using hstep
      refine hinv.keep ⟨rfl, rfl, rfl⟩ (by simp [Slot.carried, hpc]) (by simp [WorkerPc.leaves])
        ⟨by simp, by simp, by simp, by simp, fun hwoke => ?_⟩
      have := hinv.place.fresh (bumped_of_woke hwoke) token hpc
      omega
    next =>
      obtain rfl := by simpa using hstep
      exact hinv.keep ⟨rfl, rfl, rfl⟩ (by simp [Slot.carried, hpc]) (by simp [WorkerPc.leaves])
        (placeSound_plain rfl)
  case woken =>
    split at hstep
    next hwake =>
      obtain ⟨-, hrunning, -⟩ := hwake
      obtain rfl := by simpa using hstep
      refine ⟨hinv.seen, by simp [WorkerPc.leaves], hinv.cleared, hinv.stamped,
        ?_, ?_, ⟨by simp, ?_, by simp, by simp, by simp⟩⟩
      · rintro - (hnew | hbusy)
        · exact hinv.late hrunning (.inl hnew)
        · exact hinv.late hrunning (.inl (by
            simpa [Slot.carried, Slot.Unprocessed] using hbusy))
      · intro mailbox hmailbox
        obtain ⟨hnew, rfl⟩ := by simpa [Slot.carried] using hmailbox
        exact ⟨hrunning, hinv.late hrunning (.inl hnew)⟩
      · intro mailbox hmailbox
        obtain rfl := WorkerPc.chainWake.inj hmailbox
        exact hrunning
    next =>
      obtain rfl := by simpa using hstep
      exact hinv.examine (by simp [Slot.carried, hpc])
  all_goals
    repeat' split at hstep
  all_goals obtain rfl := by simpa using hstep
  all_goals
    exact hinv.keep ⟨rfl, rfl, rfl⟩ (by simp [Slot.carried, hpc])
      (by simp [WorkerPc.leaves]) (placeSound_plain rfl)

/-! ## What holds along a shutdown -/

/-- The slots that the join has passed. -/
def CloserPc.joined : CloserPc → ℕ → Prop
  | .join next, slot => slot < next
  | .returned, _ => True
  | _, _ => False

/-- The slot that the closer works on. -/
def CloserPc.nextSlot : CloserPc → Option ℕ
  | .loadMailbox slot | .storeMailbox slot _ | .join slot => some slot
  | _ => none

structure ShutdownInv (participants : ℕ) (state : State) : Prop where
  job : state.closer ≠ .clearJob → state.control.activeJob = false
  held : ∀ word, state.closer = .storeWord word →
    word = state.control.futexWord
  positive : ∀ slot, state.closer.nextSlot = some slot → 1 ≤ slot
  slots : ∀ slot, 1 ≤ slot → slot < participants →
    SlotInv state.control state.closer slot (state.slots slot)
  joined : ∀ slot, 1 ≤ slot → slot < participants →
    state.closer.joined slot → (state.slots slot).pc = .exited

variable {start before state : State} {reached : State} {action : Action}
variable {event : Option Empty} {control' : Control} {closer' : CloserPc}

theorem PlaceSound.beforeBump {pc : WorkerPc}
    (hplace : PlaceSound control closer pc)
    (hword : control.futexWord ≤ control'.futexWord)
    (hbumped : closer'.bumped = false) : PlaceSound control' closer' pc where
  idle := hplace.idle
  chained := hplace.chained
  token := fun token hpc => (hplace.token token hpc).trans hword
  fresh := by simp [hbumped]
  awake := by
    intro hwoke
    rw [bumped_of_woke hwoke] at hbumped
    cases hbumped

theorem PlaceSound.behindBump {pc : WorkerPc}
    (hplace : PlaceSound control closer pc)
    (hbumped : closer.bumped = true)
    (hawake : closer'.woke = true → pc ≠ .asleep) :
    PlaceSound control closer' pc where
  idle := hplace.idle
  chained := hplace.chained
  token := hplace.token
  fresh := fun _ => hplace.fresh hbumped
  awake := hawake

/-- The closer moves on and leaves the worker alone. -/
theorem SlotInv.wait (hinv : SlotInv control closer index slot)
    (hjob : control.activeJob = false → control'.activeJob = false)
    (hstamped : closer'.stamped index → slot.mailbox.shutdown = true)
    (hplace : PlaceSound control' closer' slot.pc) :
    SlotInv control' closer' index slot where
  seen := hinv.seen
  leaving := hinv.leaving
  cleared := hjob ∘ hinv.cleared
  stamped := hstamped
  late := hinv.late
  carrying := hinv.carrying
  place := hplace

/-- The stamp lands in a worker's mailbox. -/
theorem SlotInv.stamp (hinv : SlotInv control closer index slot)
    (prev : Mailbox) (hjob : control.activeJob = false)
    (hplace : PlaceSound control closer' slot.pc) :
    SlotInv control closer' index { slot with mailbox := shutdownMb prev } where
  seen := hinv.seen
  leaving := fun _ => rfl
  cleared := fun _ => hjob
  stamped := fun _ => rfl
  late := by simp [shutdownMb]
  carrying := hinv.carrying
  place := hplace

theorem SlotInv.rouse (hinv : SlotInv control closer index slot) :
    SlotInv control closer index slot.rouse := by
  unfold Slot.rouse
  split
  next hpc =>
    exact hinv.keep ⟨rfl, rfl, rfl⟩ (by simp [Slot.carried, hpc])
      (by simp [WorkerPc.leaves]) (placeSound_plain rfl)
  next => exact hinv

theorem rouse_ne_asleep (slot : Slot) : slot.rouse.pc ≠ .asleep := by
  unfold Slot.rouse
  split
  · simp
  · assumption

theorem rouse_exited (hexited : slot.pc = .exited) : slot.rouse = slot := by
  simp [Slot.rouse, hexited]

theorem ShutdownInv.close (hinv : ShutdownInv participants before)
    (hstep : stepCloser participants before = some state) :
    ShutdownInv participants state := by
  have hslots := hinv.slots
  cases hcloser : before.closer <;>
    simp only [stepCloser, hcloser, reduceCtorEq] at hstep
  all_goals rw [hcloser] at hslots
  all_goals
    have hjob : before.closer ≠ .clearJob →
      before.control.activeJob = false := hinv.job
    simp only [hcloser, ne_eq, reduceCtorEq, not_false_eq_true, true_implies]
      at hjob
  case clearJob =>
    obtain rfl := by simpa using hstep
    refine ⟨fun _ => rfl, by simp, by simp [CloserPc.nextSlot], ?_,
      by simp [CloserPc.joined]⟩
    exact fun slot hpos hslot => (hslots slot hpos hslot).wait (fun _ => rfl)
      False.elim ((hslots slot hpos hslot).place.beforeBump le_rfl rfl)
  case orGeneration =>
    obtain rfl := by simpa using hstep
    refine ⟨fun _ => hjob, by simp, by simp [CloserPc.nextSlot], ?_,
      by simp [CloserPc.joined]⟩
    exact fun slot hpos hslot => (hslots slot hpos hslot).wait id
      (fun hbelow => absurd hpos (Nat.not_le.2 hbelow))
      ((hslots slot hpos hslot).place.beforeBump le_rfl rfl)
  case loadMailbox next =>
    have hnext := hinv.positive next (by rw [hcloser]; rfl)
    split at hstep
    next =>
      obtain rfl := by simpa using hstep
      refine ⟨fun _ => hjob, by simp, by simp [CloserPc.nextSlot, hnext], ?_,
        by simp [CloserPc.joined]⟩
      exact fun slot hpos hslot => (hslots slot hpos hslot).wait id
        (hslots slot hpos hslot).stamped
        ((hslots slot hpos hslot).place.beforeBump le_rfl rfl)
    next hlast =>
      obtain rfl := by simpa using hstep
      refine ⟨fun _ => hjob, by simp, by simp [CloserPc.nextSlot], ?_,
        by simp [CloserPc.joined]⟩
      exact fun slot hpos hslot => (hslots slot hpos hslot).wait id
        (fun _ => (hslots slot hpos hslot).stamped
          (hslot.trans_le (Nat.not_lt.1 hlast)))
        ((hslots slot hpos hslot).place.beforeBump le_rfl rfl)
  case storeMailbox next prev =>
    have hnext := hinv.positive next (by rw [hcloser]; rfl)
    obtain rfl := by simpa using hstep
    refine ⟨fun _ => hjob, by simp, by simp [CloserPc.nextSlot], ?_,
      by simp [CloserPc.joined]⟩
    intro slot hpos hslot
    have hplace : PlaceSound before.control (.loadMailbox (next + 1))
        (before.slots slot).pc :=
      (hslots slot hpos hslot).place.beforeBump le_rfl rfl
    by_cases hsame : slot = next
    · subst hsame
      simp only [Function.update_self]
      exact (hslots slot hpos hslot).stamp prev hjob hplace
    · simp only [Function.update_of_ne hsame]
      exact (hslots slot hpos hslot).wait id (fun hbelow =>
        (hslots slot hpos hslot).stamped
          (Nat.lt_of_le_of_ne (Nat.lt_succ_iff.1 hbelow) hsame)) hplace
  case loadWord =>
    obtain rfl := by simpa using hstep
    refine ⟨fun _ => hjob, by simp, by simp [CloserPc.nextSlot], ?_,
      by simp [CloserPc.joined]⟩
    exact fun slot hpos hslot => (hslots slot hpos hslot).wait id
      (hslots slot hpos hslot).stamped
      ((hslots slot hpos hslot).place.beforeBump le_rfl rfl)
  case storeWord word =>
    obtain rfl := hinv.held word hcloser
    obtain rfl := by simpa using hstep
    refine ⟨fun _ => hjob, by simp, by simp [CloserPc.nextSlot], ?_,
      by simp [CloserPc.joined]⟩
    intro slot hpos hslot
    have hplace := (hslots slot hpos hslot).place
    refine (hslots slot hpos hslot).wait id (hslots slot hpos hslot).stamped
      ⟨hplace.idle, hplace.chained, fun token htoken =>
        Nat.le_succ_of_le (hplace.token token htoken), fun _ token htoken =>
        Nat.lt_succ_of_le (hplace.token token (.inr htoken)), ?_⟩
    simp [CloserPc.woke]
  case wakeAll =>
    obtain rfl := by simpa using hstep
    refine ⟨fun _ => hjob, by simp, by simp [CloserPc.nextSlot], ?_, ?_⟩
    · intro slot hpos hslot
      have hroused := (hslots slot hpos hslot).rouse
      exact hroused.wait id hroused.stamped
        (hroused.place.behindBump rfl fun _ => rouse_ne_asleep _)
    · exact fun slot hpos _ hbelow => absurd hpos (Nat.not_le.2 hbelow)
  case join next =>
    have hnext := hinv.positive next (by rw [hcloser]; rfl)
    have hjoined := hinv.joined
    rw [hcloser] at hjoined
    have hmoved : ∀ closer', closer'.woke = true → ∀ slot, 1 ≤ slot →
        slot < participants →
        SlotInv before.control closer' slot (before.slots slot) :=
      fun closer' hwoke slot hpos hslot => (hslots slot hpos hslot).wait id
        (fun _ => (hslots slot hpos hslot).stamped trivial)
        ((hslots slot hpos hslot).place.behindBump rfl
          fun _ => (hslots slot hpos hslot).place.awake rfl)
    repeat' split at hstep
    all_goals simp only [Option.some.injEq, reduceCtorEq] at hstep
    next hexited =>
      subst hstep
      refine ⟨fun _ => hjob, by simp, by simp [CloserPc.nextSlot],
        hmoved _ rfl, ?_⟩
      intro slot hpos hslot hbelow
      rcases Nat.lt_succ_iff_lt_or_eq.1 hbelow with hearlier | rfl
      · exact hjoined slot hpos hslot hearlier
      · exact hexited
    next hlast =>
      subst hstep
      exact ⟨fun _ => hjob, by simp, by simp [CloserPc.nextSlot],
        hmoved _ rfl, fun slot hpos hslot _ => hjoined slot hpos hslot
          (hslot.trans_le (Nat.not_lt.1 hlast))⟩

/-- A late worker that may trust its descriptor goes on to its stamp. -/
theorem ShutdownInv.enter (hinv : ShutdownInv participants before)
    (hown : OwnDescriptor before (.worker index)) {mailbox : Mailbox}
    (hpc : (before.slots index).pc = .enter mailbox)
    (hpos : 1 ≤ index) (hindex : index < participants) :
    before.enter index mailbox = { before with
      slots := Function.update before.slots index
        { before.slots index with pc := .stamp mailbox } } := by
  have hclaim := ((hinv.slots index hpos hindex).claim hpc).1
  simp only [State.enter, if_pos (hown mailbox hpc), hclaim]

theorem ShutdownInv.release (hinv : ShutdownInv participants before)
    (released : List ℕ) : ShutdownInv participants
      { before with slots := rouseReleased before.slots released } where
  job := hinv.job
  held := hinv.held
  positive := hinv.positive
  slots := by
    intro slot hpos hslot
    simp only [rouseReleased]
    split
    · exact (hinv.slots slot hpos hslot).rouse
    · exact hinv.slots slot hpos hslot
  joined := by
    intro slot hpos hslot hjoined
    have hexited := hinv.joined slot hpos hslot hjoined
    simp only [rouseReleased, rouse_exited hexited, ite_self]
    exact hexited

theorem ShutdownInv.sound (hinv : ShutdownInv participants before) :
    ShutdownSound participants before where
  stamped := fun slot hpos hslot => (hinv.slots slot hpos hslot).stamped
  idle := fun slot hpos hslot => (hinv.slots slot hpos hslot).place.idle
  unparked := fun slot hpos hslot hbumped hpc => lt_irrefl _
    ((hinv.slots slot hpos hslot).place.fresh hbumped _ hpc)
  awake := fun slot hpos hslot => (hinv.slots slot hpos hslot).place.awake
  observed := fun slot hpos hslot hpc =>
    (hinv.slots slot hpos hslot).leaving (by rw [hpc]; rfl)

/-! ## Every fair run completes -/

/-- How many steps a worker may still take once its mailbox is stamped. -/
def placeRank : WorkerPc → ℕ
  | .exited => 0
  | .exitTest _ | .parkTest _ | .body _ | .asleep => 1
  | .load | .recheck _ | .woken => 2
  | .acknowledge _ | .storeEpoch _ true | .loadToken | .wait _ => 3
  | .stamp _ | .loadEpoch true => 4
  | .enter _ | .recheckDepth => 5
  | .spin => 6
  | .storeEpoch _ false => 7
  | .loadEpoch false => 8
  | .probeDepth => 9
  | .chainWake _ => 10

/-- How many steps the closer may still take. -/
def CloserPc.remaining (participants : ℕ) : CloserPc → ℕ
  | .clearJob => 3 * participants + 7
  | .orGeneration => 3 * participants + 6
  | .loadMailbox slot => 2 * (participants - slot) + participants + 5
  | .storeMailbox slot _ => 2 * (participants - (slot + 1)) + participants + 6
  | .loadWord => participants + 4
  | .storeWord _ => participants + 3
  | .wakeAll => participants + 2
  | .join slot => participants - slot + 1
  | .returned => 0

/-- The closer's steps come first; behind the wake the workers' count. -/
def rank (participants : ℕ) (state : State) : ℕ ×ₗ ℕ :=
  toLex (state.closer.remaining participants,
    if state.closer.woke then
      ∑ slot ∈ Finset.Ico 1 participants, placeRank (state.slots slot).pc
    else 0)

/-- Whose turn it is: the worker that the join waits for, and else the
closer. -/
def helper (participants : ℕ) (state : State) : Party :=
  match state.closer with
  | .join slot =>
      if slot < participants ∧ (state.slots slot).pc ≠ .exited then
        .worker slot
      else .closer
  | _ => .closer

/-- Whoever's turn it is can act. -/
theorem ShutdownInv.helper_enabled (hinv : ShutdownInv participants before)
    (hopen : ¬ Complete participants before) :
    ∃ action, action.owner = helper participants before ∧
      (shutdownAndJoin participants).step before action ≠ none := by
  cases hcloser : before.closer with
  | returned =>
      refine absurd ⟨hcloser, fun slot hpos hslot => ?_⟩ hopen
      exact hinv.joined slot hpos hslot (by rw [hcloser]; trivial)
  | join slot =>
      have hpos := hinv.positive slot (by rw [hcloser]; rfl)
      by_cases hwaits : slot < participants ∧ (before.slots slot).pc ≠ .exited
      · have hawake := (hinv.slots slot hpos hwaits.1).place.awake
          (by rw [hcloser]; rfl)
        have hhelper : helper participants before = .worker slot := by
          simp [helper, hcloser, hwaits]
        cases hpc : (before.slots slot).pc
        case chainWake mailbox =>
          have hnobody : Releases participants 2 before.slots [] := by
            refine ⟨by simp, by simp, by simp, .inr ?_⟩
            exact fun index hindex hfirst hasleep => absurd hasleep
              ((hinv.slots index hfirst hindex).place.awake
                (by rw [hcloser]; rfl))
          exact ⟨.chainWake slot [], hhelper.symm, by
            simp [shutdownAndJoin, hpc, hpos, hwaits.1, hnobody]⟩
        case asleep => exact absurd hpc hawake
        case exited => exact absurd hpc hwaits.2
        all_goals
          refine ⟨.worker slot, hhelper.symm, ?_⟩
          simp only [shutdownAndJoin, hpos, hwaits.1, and_self, if_true,
            stepWorker, hpc, Slot.advance]
          repeat' split
          all_goals simp
      · refine ⟨.close, by simp [helper, hcloser, hwaits, Action.owner], ?_⟩
        simp only [shutdownAndJoin, stepCloser, hcloser]
        split
        next hslot =>
          have hexited : (before.slots slot).pc = .exited := by
            by_contra hrunning
            exact hwaits ⟨hslot, hrunning⟩
          simp [hexited]
        next => simp
  | _ =>
      refine ⟨.close, by simp [helper, hcloser, Action.owner], ?_⟩
      simp only [shutdownAndJoin, stepCloser, hcloser]
      first
      | split <;> simp
      | simp

end Citor.Shutdown
