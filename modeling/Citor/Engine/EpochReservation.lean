import Citor.Chain.StageRunner
import Citor.Core.MachineWord

/-!
# Epoch reservations

`runPlex` owns one block of done slots and one 64-bit epoch counter,
`parallelChain` and `parallelScan` share another pair.  A call reserves the
interval behind the counter, stamps absolute epochs out of it and waits for
absolute epochs of it.  Nothing resets a slot between calls, except the rebase
when the counter comes near the end of the word.  This file follows the words
through histories of calls.
-/

namespace Citor.EpochReservation

open Chain DoneSlots MachineWord

/-! ## The words of one engine -/

/-- `m_plexEpochBase` and `m_plexDoneSlots`, or their chain counterparts. -/
structure EpochWords where
  base : ℕ
  done : ℕ → ℕ

/-- The wrap guard: it looks at the base alone. -/
def EpochWords.rebase (words : EpochWords) (participants : ℕ) : EpochWords :=
  if 2 ^ 64 - 1 - 1024 < words.base then
    { base := 0
      done := fun slot =>
        if slot < participants then 0 else words.done slot }
  else words

/-! ## What a slot stamps -/

/-- What the producer of a plex sees at a phase. -/
inductive ProducerPhase
  /-- A stop request or a peer's failure: it publishes and joins, without a
  stamp of its own. -/
  | stopSeen
  | prePhaseThrew
  | bodyThrew
  | finished
  deriving DecidableEq, Repr

/-- What a worker of a plex sees at a phase. -/
inductive WorkerPhase
  /-- `phaseCancelled` while the phase was unpublished. -/
  | leftUnpublished
  /-- `phaseCancelled` once the phase was published. -/
  | leftPublished
  | bodyThrew
  | finished
  deriving DecidableEq, Repr

/-- The stamps of slot 0 in `runPlexParallel`, from `phase` on. -/
def plexProducerStamps (epochBase nPhases : ℕ) :
    ℕ → List ProducerPhase → List ℕ
  | _, [] => []
  | phase, seen :: later =>
      if nPhases < phase then []
      else match seen with
        | .stopSeen => []
        | .prePhaseThrew | .bodyThrew => [word (epochBase + phase)]
        | .finished =>
            word (epochBase + phase) ::
              plexProducerStamps epochBase nPhases (word (phase + 1)) later

/-- The stamps of a background slot in `runPlexParallel`, from `phase` on. -/
def plexWorkerStamps (epochBase nPhases : ℕ) :
    ℕ → List WorkerPhase → List ℕ
  | _, [] => []
  | phase, seen :: later =>
      let finalStamp := word (epochBase + nPhases)
      if nPhases < phase then []
      else match seen with
        | .leftUnpublished => [finalStamp]
        | .leftPublished =>
            word (epochBase + phase) ::
              if phase < nPhases then [finalStamp] else []
        | .bodyThrew => [finalStamp]
        | .finished =>
            word (epochBase + phase) ::
              plexWorkerStamps epochBase nPhases (word (phase + 1)) later

/-- How a slot gets through a chain stage. -/
inductive StageEnd
  | leftAtBoundary
  | bodyThrew
  | passed
  deriving DecidableEq, Repr

/-- `kThisStampNeeded`, or slot 0 behind a `ProducerSerial` barrier. -/
def stampNeeded (barriers : List BarrierKind) (stage slot : ℕ) : Bool :=
  barriers.getD stage .none ≠ .none ||
    ((match stage with
      | 0 => BarrierKind.none
      | before + 1 => barriers.getD before .none) = .producerSerial &&
      slot = 0)

/-- The stage runner's own test. -/
theorem stampNeeded_barriers (call : Chain.Call) :
    stampNeeded call.barriers = call.stampNeeded := by
  funext stage slot
  cases stage <;> rfl

/-- The stamps of a slot in `runChainStageForSlot`, from `stage` on; the
dynamic scheduler stamps alike, its barriers being all rendezvous. -/
def chainSlotStamps (barriers : List BarrierKind) (epochBase slot : ℕ) :
    ℕ → List StageEnd → List ℕ
  | _, [] => []
  | stage, seen :: later =>
      if barriers.length ≤ stage then []
      else match seen with
        | .leftAtBoundary | .bodyThrew =>
            [word (epochBase + barriers.length)]
        | .passed =>
            if stampNeeded barriers stage slot then
              word (epochBase + (stage + 1)) ::
                chainSlotStamps barriers epochBase slot (stage + 1) later
            else chainSlotStamps barriers epochBase slot (stage + 1) later

/-- How far a slot got in `runScanParallel`. -/
inductive ScanEnd
  | pass1Threw
  | ranPass1
  | leftScan
  deriving DecidableEq, Repr

def scanSlotStamps (epochBase : ℕ) : ScanEnd → List ℕ
  | .pass1Threw => [word (epochBase + 2)]
  | .ranPass1 => [word (epochBase + 1)]
  | .leftScan => [word (epochBase + 1), word (epochBase + 2)]

/-! ## Calls and histories -/

/-- One call, with what each slot sees in it: any cancellation and any throws
are some such views. -/
inductive Call
  | runPlex (nPhases : ℕ) (producer : List ProducerPhase)
      (workers : ℕ → List WorkerPhase)
  | parallelChain (barriers : List BarrierKind) (slots : ℕ → List StageEnd)
  | parallelScan (slots : ℕ → ScanEnd)

/-- The epochs a call may stamp and wait for: `1` up to its span, above its
base. -/
def Call.span : Call → ℕ
  | .runPlex nPhases _ _ => nPhases
  | .parallelChain barriers _ => barriers.length
  | .parallelScan _ => 2

/-- The phase and stage counts are 64-bit numbers. -/
def Call.Sized (call : Call) : Prop :=
  call.span < 2 ^ 64

def Call.slotStamps (call : Call) (epochBase slot : ℕ) : List ℕ :=
  match call with
  | .runPlex nPhases producer workers =>
      if slot = 0 then plexProducerStamps epochBase nPhases 1 producer
      else plexWorkerStamps epochBase nPhases 1 (workers slot)
  | .parallelChain barriers slots =>
      chainSlotStamps barriers epochBase slot 0 (slots slot)
  | .parallelScan slots => scanSlotStamps epochBase (slots slot)

/-- An absolute target of a call. -/
def target (epochBase epoch : ℕ) : ℕ :=
  word (epochBase + epoch)

/-- The words as a call leaves them: the counter advanced by the span and one,
every slot holding the last epoch it stamped. -/
def EpochWords.afterCall (words : EpochWords) (participants : ℕ)
    (call : Call) : EpochWords :=
  let reserved := words.rebase participants
  { base := word (reserved.base + word (call.span + 1))
    done := fun slot =>
      if slot < participants then
        (call.slotStamps reserved.base slot).getLastD (reserved.done slot)
      else reserved.done slot }

/-- The two pairs of words of a pool. -/
structure PoolEpochs where
  plex : EpochWords
  chain : EpochWords

/-- The pool as constructed. -/
def PoolEpochs.fresh : PoolEpochs where
  plex := { base := 0, done := fun _ => 0 }
  chain := { base := 0, done := fun _ => 0 }

/-- The words the call's engine uses. -/
def PoolEpochs.wordsOf (pool : PoolEpochs) : Call → EpochWords
  | .runPlex _ _ _ => pool.plex
  | .parallelChain _ _ | .parallelScan _ => pool.chain

/-- The pool after a call; without phases or stages a call returns before it
reserves anything. -/
def PoolEpochs.afterCall (pool : PoolEpochs) (participants : ℕ)
    (call : Call) : PoolEpochs :=
  if call.span = 0 then pool
  else match call with
    | .runPlex _ _ _ =>
        { pool with plex := pool.plex.afterCall participants call }
    | .parallelChain _ _ | .parallelScan _ =>
        { pool with chain := pool.chain.afterCall participants call }

/-- The pool after a history of calls. -/
def PoolEpochs.afterCalls (pool : PoolEpochs) (participants : ℕ)
    (calls : List Call) : PoolEpochs :=
  calls.foldl (fun pool call => pool.afterCall participants call) pool

/-! ## Separation -/

/-- What a call relies on when it finds `words`. -/
structure Separate (participants : ℕ) (words : EpochWords) (call : Call) :
    Prop where
  /-- No stamp left behind is above the call's base. -/
  residue_le : ∀ slot < participants,
    (words.rebase participants).done slot ≤
      (words.rebase participants).base
  /-- No wait of the call is satisfied by a stamp left behind. -/
  residue_lt : ∀ slot < participants, ∀ epoch, 1 ≤ epoch →
    epoch ≤ call.span →
    (words.rebase participants).done slot <
      target (words.rebase participants).base epoch
  /-- The targets do not wrap. -/
  target_eq : ∀ epoch ≤ call.span,
    target (words.rebase participants).base epoch =
      (words.rebase participants).base + epoch
  /-- The targets increase. -/
  target_lt : ∀ epoch later, epoch < later → later ≤ call.span →
    target (words.rebase participants).base epoch <
      target (words.rebase participants).base later
  /-- A slot's stamps never decrease, from the one left behind on. -/
  stamps_le : ∀ slot < participants,
    ((words.rebase participants).done slot ::
      call.slotStamps (words.rebase participants).base slot).Pairwise
        (· ≤ ·)
  /-- A target once reached is not passed back. -/
  reached : ∀ slot < participants, ∀ epoch earlier stamp later,
    call.slotStamps (words.rebase participants).base slot =
      earlier ++ stamp :: later →
    target (words.rebase participants).base epoch ≤ stamp →
    ∀ next ∈ later, target (words.rebase participants).base epoch ≤ next

/-- The reservation of the call fits the word. -/
def Fits (participants : ℕ) (words : EpochWords) (call : Call) : Prop :=
  (words.rebase participants).base + call.span + 1 < 2 ^ 64

/-! ## Stamps climb -/

/-- The stamps never decrease and stay between two bounds. -/
def Climbs (low high : ℕ) (stamps : List ℕ) : Prop :=
  stamps.Pairwise (· ≤ ·) ∧ ∀ stamp ∈ stamps, low ≤ stamp ∧ stamp ≤ high

theorem Climbs.nil (low high : ℕ) : Climbs low high [] :=
  ⟨List.Pairwise.nil, by simp⟩

theorem Climbs.cons {low stamp high : ℕ} {stamps : List ℕ}
    (hlow : low ≤ stamp) (hhigh : stamp ≤ high)
    (hclimbs : Climbs stamp high stamps) :
    Climbs low high (stamp :: stamps) := by
  refine ⟨List.pairwise_cons.2 ⟨fun next hnext => ?_, hclimbs.1⟩, ?_⟩
  · exact (hclimbs.2 next hnext).1
  · intro next hnext
    rcases List.mem_cons.1 hnext with rfl | hlater
    · exact ⟨hlow, hhigh⟩
    · have := hclimbs.2 next hlater
      exact ⟨hlow.trans this.1, this.2⟩

theorem Climbs.single {low stamp high : ℕ} (hlow : low ≤ stamp)
    (hhigh : stamp ≤ high) : Climbs low high [stamp] :=
  Climbs.cons hlow hhigh (Climbs.nil stamp high)

theorem Climbs.lower {low low' high : ℕ} {stamps : List ℕ} (hle : low ≤ low')
    (hclimbs : Climbs low' high stamps) : Climbs low high stamps := by
  refine ⟨hclimbs.1, fun stamp hstamp => ?_⟩
  have := hclimbs.2 stamp hstamp
  exact ⟨hle.trans this.1, this.2⟩

section Stamps

variable {epochBase : ℕ}

theorem climbs_plexProducerStamps {nPhases : ℕ}
    (hfits : epochBase + nPhases + 1 < 2 ^ 64) (phase : ℕ)
    (script : List ProducerPhase) :
    Climbs (epochBase + phase) (epochBase + nPhases)
      (plexProducerStamps epochBase nPhases phase script) := by
  induction script generalizing phase with
  | nil => exact Climbs.nil _ _
  | cons seen later ih =>
      rw [plexProducerStamps.eq_def]
      simp only
      split
      · exact Climbs.nil _ _
      next hphase =>
        have hstamp : word (epochBase + phase) = epochBase + phase :=
          word_of_lt (by omega)
        have hnext : word (phase + 1) = phase + 1 := word_of_lt (by omega)
        cases seen with
        | stopSeen => exact Climbs.nil _ _
        | prePhaseThrew =>
            rw [hstamp]
            exact Climbs.single le_rfl (by omega)
        | bodyThrew =>
            rw [hstamp]
            exact Climbs.single le_rfl (by omega)
        | finished =>
            simp only
            rw [hstamp, hnext]
            exact Climbs.cons le_rfl (by omega)
              ((ih (phase + 1)).lower (by omega))

theorem climbs_plexWorkerStamps {nPhases : ℕ}
    (hfits : epochBase + nPhases + 1 < 2 ^ 64) (phase : ℕ)
    (script : List WorkerPhase) :
    Climbs (epochBase + phase) (epochBase + nPhases)
      (plexWorkerStamps epochBase nPhases phase script) := by
  induction script generalizing phase with
  | nil => exact Climbs.nil _ _
  | cons seen later ih =>
      rw [plexWorkerStamps.eq_def]
      simp only
      split
      · exact Climbs.nil _ _
      next hphase =>
        have hstamp : word (epochBase + phase) = epochBase + phase :=
          word_of_lt (by omega)
        have hfinal : word (epochBase + nPhases) = epochBase + nPhases :=
          word_of_lt (by omega)
        have hnext : word (phase + 1) = phase + 1 := word_of_lt (by omega)
        cases seen with
        | leftUnpublished =>
            rw [hfinal]
            exact Climbs.single (by omega) le_rfl
        | bodyThrew =>
            rw [hfinal]
            exact Climbs.single (by omega) le_rfl
        | leftPublished =>
            simp only
            rw [hstamp, hfinal]
            refine Climbs.cons le_rfl (by omega) ?_
            split
            · exact Climbs.single (by omega) le_rfl
            · exact Climbs.nil _ _
        | finished =>
            simp only
            rw [hstamp, hnext]
            exact Climbs.cons le_rfl (by omega)
              ((ih (phase + 1)).lower (by omega))

theorem climbs_chainSlotStamps {barriers : List BarrierKind}
    (hfits : epochBase + barriers.length + 1 < 2 ^ 64) (slot stage : ℕ)
    (script : List StageEnd) :
    Climbs (epochBase + (stage + 1)) (epochBase + barriers.length)
      (chainSlotStamps barriers epochBase slot stage script) := by
  induction script generalizing stage with
  | nil => exact Climbs.nil _ _
  | cons seen later ih =>
      rw [chainSlotStamps.eq_def]
      simp only
      split
      · exact Climbs.nil _ _
      next hstage =>
        have hstamp : word (epochBase + (stage + 1)) =
            epochBase + (stage + 1) := word_of_lt (by omega)
        have hfinal : word (epochBase + barriers.length) =
            epochBase + barriers.length := word_of_lt (by omega)
        have hlater := (ih (stage + 1)).lower
          (show epochBase + (stage + 1) ≤ epochBase + (stage + 1 + 1) by omega)
        cases seen with
        | leftAtBoundary =>
            rw [hfinal]
            exact Climbs.single (by omega) le_rfl
        | bodyThrew =>
            rw [hfinal]
            exact Climbs.single (by omega) le_rfl
        | passed =>
            simp only
            split
            · rw [hstamp]
              exact Climbs.cons le_rfl (by omega) hlater
            · exact hlater

theorem climbs_scanSlotStamps (hfits : epochBase + 2 + 1 < 2 ^ 64)
    (seen : ScanEnd) :
    Climbs (epochBase + 1) (epochBase + 2) (scanSlotStamps epochBase seen) := by
  have hpass1 : word (epochBase + 1) = epochBase + 1 := word_of_lt (by omega)
  have hpass2 : word (epochBase + 2) = epochBase + 2 := word_of_lt (by omega)
  cases seen <;> simp only [scanSlotStamps, hpass1, hpass2]
  · exact Climbs.single (by omega) le_rfl
  · exact Climbs.single le_rfl (by omega)
  · exact Climbs.cons le_rfl (by omega) (Climbs.single (by omega) le_rfl)

/-- Every slot of a call that fits stamps inside the reserved interval, never
going back. -/
theorem climbs_slotStamps (call : Call)
    (hfits : epochBase + call.span + 1 < 2 ^ 64) (slot : ℕ) :
    Climbs (epochBase + 1) (epochBase + call.span)
      (call.slotStamps epochBase slot) := by
  cases call with
  | runPlex nPhases producer workers =>
      simp only [Call.slotStamps]
      split
      · exact climbs_plexProducerStamps hfits 1 producer
      · exact climbs_plexWorkerStamps hfits 1 (workers slot)
  | parallelChain barriers slots =>
      exact climbs_chainSlotStamps hfits slot 0 (slots slot)
  | parallelScan slots => exact climbs_scanSlotStamps hfits (slots slot)

end Stamps

/-! ## Histories whose reservations fit -/

/-- What calls whose reservations fit keep of the words. -/
structure Kept (participants : ℕ) (words : EpochWords) : Prop where
  done_le : ∀ slot, words.done slot ≤ words.base
  beyond : ∀ slot, participants ≤ slot → words.done slot = 0

theorem Kept.rebase {participants : ℕ} {words : EpochWords}
    (hkept : Kept participants words) :
    Kept participants (words.rebase participants) := by
  rw [EpochWords.rebase]
  split
  · have hzero : ∀ slot,
        (if slot < participants then 0 else words.done slot) = 0 := by
      intro slot
      split
      · rfl
      next hbeyond => exact hkept.beyond slot (Nat.not_lt.1 hbeyond)
    exact ⟨fun slot => (hzero slot).le, fun slot _ => hzero slot⟩
  · exact hkept

/-- A call that fits finds the words separate from its interval. -/
theorem Kept.separate {participants : ℕ} {words : EpochWords}
    (hkept : Kept participants words) {call : Call}
    (hfits : Fits participants words call) :
    Separate participants words call := by
  have hdone := hkept.rebase.done_le
  have htarget : ∀ epoch ≤ call.span,
      target (words.rebase participants).base epoch =
        (words.rebase participants).base + epoch := by
    intro epoch hepoch
    rw [Fits] at hfits
    exact word_of_lt (by omega)
  have hclimbs := climbs_slotStamps call hfits
  refine ⟨fun slot _ => hdone slot, ?_, htarget, ?_, ?_, ?_⟩
  · intro slot _ epoch hpos hepoch
    rw [htarget epoch hepoch]
    have := hdone slot
    omega
  · intro epoch later hlt hlater
    rw [htarget epoch (by omega), htarget later hlater]
    omega
  · intro slot _
    refine List.pairwise_cons.2 ⟨fun stamp hstamp => ?_, (hclimbs slot).1⟩
    have hlow := ((hclimbs slot).2 stamp hstamp).1
    have := hdone slot
    omega
  · intro slot _ epoch earlier stamp later hsplit hreached next hnext
    have hpairwise := (hclimbs slot).1
    rw [hsplit, List.pairwise_append, List.pairwise_cons] at hpairwise
    exact hreached.trans (hpairwise.2.1.1 next hnext)

/-- And leaves words the next call can rely on. -/
theorem Kept.afterCall {participants : ℕ} {words : EpochWords}
    (hkept : Kept participants words) {call : Call}
    (hfits : Fits participants words call) :
    Kept participants (words.afterCall participants call) := by
  have hrebased := hkept.rebase
  have hclimbs := climbs_slotStamps call hfits
  rw [Fits] at hfits
  have hadvance : word (call.span + 1) = call.span + 1 :=
    word_of_lt (by omega)
  have hbase : (words.afterCall participants call).base =
      (words.rebase participants).base + (call.span + 1) := by
    simp only [EpochWords.afterCall, hadvance]
    exact word_of_lt (by omega)
  refine ⟨fun slot => ?_, fun slot hbeyond => ?_⟩
  · rw [hbase]
    simp only [EpochWords.afterCall]
    have hdone := hrebased.done_le slot
    split
    · cases hstamps :
          call.slotStamps (words.rebase participants).base slot with
      | nil =>
          rw [List.getLastD_nil]
          omega
      | cons stamp stamps =>
          have hlast := ((hclimbs slot).2
            ((stamp :: stamps).getLastD 0) (by
              rw [hstamps, List.getLastD_cons]
              exact List.getLastD_mem_cons)).2
          rw [List.getLastD_cons] at hlast ⊢
          omega
    · omega
  · simp only [EpochWords.afterCall, Nat.not_lt.2 hbeyond, if_false]
    exact hrebased.beyond slot hbeyond

/-- Every call of the history that reserves anything fits when it is made. -/
def AllFit (participants : ℕ) : PoolEpochs → List Call → Prop
  | _, [] => True
  | pool, call :: later =>
      (call.span ≠ 0 → Fits participants (pool.wordsOf call) call) ∧
        AllFit participants (pool.afterCall participants call) later

theorem allFit_append {participants : ℕ} {pool : PoolEpochs}
    {earlier later : List Call} :
    AllFit participants pool (earlier ++ later) ↔
      AllFit participants pool earlier ∧
        AllFit participants (pool.afterCalls participants earlier) later := by
  induction earlier generalizing pool with
  | nil => simp [AllFit, PoolEpochs.afterCalls]
  | cons call earlier ih =>
      simp only [List.cons_append, AllFit, ih, PoolEpochs.afterCalls,
        List.foldl_cons, and_assoc]

/-- Both pairs of words of a pool are kept. -/
structure PoolKept (participants : ℕ) (pool : PoolEpochs) : Prop where
  plex : Kept participants pool.plex
  chain : Kept participants pool.chain

theorem PoolKept.fresh (participants : ℕ) :
    PoolKept participants PoolEpochs.fresh :=
  ⟨⟨fun _ => le_rfl, fun _ _ => rfl⟩, ⟨fun _ => le_rfl, fun _ _ => rfl⟩⟩

theorem PoolKept.wordsOf {participants : ℕ} {pool : PoolEpochs}
    (hkept : PoolKept participants pool) (call : Call) :
    Kept participants (pool.wordsOf call) := by
  cases call with
  | runPlex => exact hkept.plex
  | parallelChain => exact hkept.chain
  | parallelScan => exact hkept.chain

theorem PoolKept.afterCall {participants : ℕ} {pool : PoolEpochs}
    (hkept : PoolKept participants pool) {call : Call}
    (hfits : call.span ≠ 0 → Fits participants (pool.wordsOf call) call) :
    PoolKept participants (pool.afterCall participants call) := by
  rw [PoolEpochs.afterCall.eq_def]
  split
  · exact hkept
  next hspan =>
    have hcall := (hkept.wordsOf call).afterCall (hfits hspan)
    cases call with
    | runPlex => exact ⟨hcall, hkept.chain⟩
    | parallelChain => exact ⟨hkept.plex, hcall⟩
    | parallelScan => exact ⟨hkept.plex, hcall⟩

theorem PoolKept.afterCalls {participants : ℕ} {pool : PoolEpochs}
    (hkept : PoolKept participants pool) {calls : List Call}
    (hfits : AllFit participants pool calls) :
    PoolKept participants (pool.afterCalls participants calls) := by
  induction calls generalizing pool with
  | nil => exact hkept
  | cons call later ih =>
      rw [AllFit] at hfits
      exact ih (hkept.afterCall hfits.1) hfits.2

/-- In every history whose reservations fit the word, every call finds the
stamps of earlier calls below its own interval, its targets increase without
wrapping, and no slot's stamps go back. -/
theorem calls_separate (participants : ℕ) (calls : List Call)
    (hfits : AllFit participants PoolEpochs.fresh calls) :
    ∀ earlier call later, calls = earlier ++ call :: later →
      call.span ≠ 0 →
      Separate participants
        ((PoolEpochs.fresh.afterCalls participants earlier).wordsOf call)
        call := by
  rintro earlier call later rfl hspan
  rw [allFit_append, AllFit] at hfits
  have hkept := (PoolKept.fresh participants).afterCalls hfits.1
  exact (hkept.wordsOf call).separate (hfits.2.1 hspan)

/-- The guard leaves room for a thousand epochs: scans and chains of at most
1023 stages always fit. -/
theorem fits_of_span_le (participants : ℕ) (words : EpochWords) {call : Call}
    (hspan : call.span ≤ 1023) : Fits participants words call := by
  rw [Fits, EpochWords.rebase]
  split
  · simp only
    omega
  next hbase => omega

/-- The words that kept calls leave are what one chain or scan call starts
from. -/
def Kept.chainEpochs {participants : ℕ} {words : EpochWords}
    (hkept : Kept participants words) : ChainEpochs where
  epochBase := (words.rebase participants).base
  done := (words.rebase participants).done
  done_le := hkept.rebase.done_le

/-- A chain whose first stage throws in slot 1, a scan, and a plex of three
phases that a stop ends after the first. -/
def mixedHistory : List Call :=
  [.parallelChain [.global, .none]
      (fun slot => if slot = 1 then [.bodyThrew] else [.passed, .passed]),
    .parallelScan fun _ => .leftScan,
    .runPlex 3 [.finished, .stopSeen]
      fun _ => [.finished, .leftPublished]]

theorem calls_separate_mixedHistory :
    Separate 2
      (((PoolEpochs.fresh.afterCalls 2 mixedHistory).wordsOf
        (.parallelScan fun _ => .pass1Threw)))
      (.parallelScan fun _ => .pass1Threw) := by
  have hfits : AllFit 2 PoolEpochs.fresh
      (mixedHistory ++ [.parallelScan fun _ => .pass1Threw]) := by
    refine ⟨fun _ => ?_, fun _ => ?_, fun _ => ?_, fun _ => ?_, trivial⟩ <;>
      exact fits_of_span_le _ _ (by decide)
  exact calls_separate 2 _ hfits mixedHistory _ [] rfl (by decide)

/-! ## A history that does not fit

The guard tests the base and not the advance.  A plex of `2 ^ 64 - 1` phases
on a token that is already stopped returns at its first phase, but reserves
the whole word: the counter comes back to zero while the worker has stamped
the final epoch. -/

/-- The stopped plex: slot 0 sees the stop, the worker leaves the published
first phase. -/
def stoppedPlex : Call :=
  .runPlex (2 ^ 64 - 1) [.stopSeen] fun _ => [.leftPublished]

/-- The plex that follows, with two phases and nothing wrong. -/
def secondPlex : Call :=
  .runPlex 2 [.finished, .finished] fun _ => [.finished, .finished]

/-- The worker's stamp of the stopped plex satisfies every wait of the second
one before it has run anything. -/
theorem not_calls_separate :
    ¬ ∀ (participants : ℕ) (calls : List Call), 2 ≤ participants →
      (∀ call ∈ calls, call.Sized) →
      ∀ earlier call later, calls = earlier ++ call :: later →
        call.span ≠ 0 →
        Separate participants
          ((PoolEpochs.fresh.afterCalls participants earlier).wordsOf call)
          call := by
  intro hall
  have hseparate := hall 2 [stoppedPlex, secondPlex] le_rfl
    (by
      intro call hcall
      rw [Call.Sized]
      rcases List.mem_cons.1 hcall with rfl | hlast
      · decide
      · rw [List.mem_singleton.1 hlast]
        decide)
    [stoppedPlex] secondPlex [] rfl (by decide)
  have hresidue := hseparate.residue_le 1 (by decide)
  revert hresidue
  decide

end Citor.EpochReservation
