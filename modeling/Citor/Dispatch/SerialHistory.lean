import Citor.Dispatch.CallHistory
import Citor.Dispatch.SerialJobs

/-!
# Parallel loops in memory

The bodies of `parallelFor` work on a shared memory, index by index and by
atomic operations that interleave while blocks overlap.  Where the indices of
each call do not interfere with each other, the calls of a run leave the memory
behind that plain loops make, one after another.  Every call has more than one
block: one with a single block runs its body inline, which is not modelled.
-/

namespace Citor.JobCaches

open Interleaving
open BlockArithmetic (Fits Partitions Tile blockTiles blockTiles_partitions_iff
  fillBlockShape_counts tile)
open SharedMemory (Bracketed Commutes Separated allows begin perform withMemory)

/-! ## The blocks of a history -/

/-- The blocks of a dispatch, by block id. -/
def Event.dispatched (program : Program) : Event → List Piece
  | .called pool generation call =>
      (List.range (call.params program).blockCount).map fun blockId =>
        ⟨pool, generation, blockId, call.params program⟩
  | _ => []

theorem mem_dispatched {program : Program} {event : Event} {piece : Piece} :
    piece ∈ event.dispatched program ↔ ∃ call,
      event = .called piece.pool piece.generation call ∧
      piece.params = call.params program ∧
      piece.blockId < piece.params.blockCount := by
  cases event with
  | called pool generation call =>
      simp only [Event.dispatched, List.mem_map, List.mem_range,
        Event.called.injEq]
      constructor
      · rintro ⟨blockId, hlt, rfl⟩
        exact ⟨call, ⟨rfl, rfl, rfl⟩, rfl, hlt⟩
      · rintro ⟨_, ⟨rfl, rfl, rfl⟩, hparams, hlt⟩
        exact ⟨piece.blockId, hparams ▸ hlt, by rw [← hparams]⟩
  | _ => simp [Event.dispatched]

theorem piece_eq_some {event : Event} {piece : Piece} :
    event.piece = some piece ↔ ∃ rank, event = .ran piece.pool
      piece.generation rank piece.blockId piece.params := by
  cases event with
  | ran pool generation rank blockId params =>
      simp only [Event.piece, Option.some.injEq, Event.ran.injEq]
      constructor
      · rintro rfl
        exact ⟨rank, rfl, rfl, rfl, rfl, rfl⟩
      · rintro ⟨_, rfl, rfl, -, rfl, rfl⟩
        rfl
  | _ => simp [Event.piece]

theorem eventsOf_split {earlier later : List Observation}
    {observation : Observation} {event : Event}
    (hshown : observation.1 = some event) :
    eventsOf (earlier ++ observation :: later) =
      eventsOf earlier ++ event :: eventsOf later := by
  simp [eventsOf, hshown]

/-- The blocks that a run opens are those that it shows. -/
theorem opens_eq (trace : List Observation) :
    trace.filterMap pieces.opens = (eventsOf trace).filterMap Event.piece := by
  rw [eventsOf, List.filterMap_filterMap]
  rfl

/-- What the events before an event say about it holds between any two. -/
theorem AllEvents.pairwise {judge : List Event → Event → Prop}
    {related : Event → Event → Prop} {events : List Event}
    (hall : AllEvents judge events)
    (hrelated : ∀ earlier event, judge earlier event →
      ∀ other ∈ earlier, related other event) : events.Pairwise related := by
  induction events using List.reverseRecOn with
  | nil => exact .nil
  | append_singleton front last ih =>
      rw [List.pairwise_append]
      refine ⟨ih fun earlier event later hsplit => ?_,
        List.pairwise_singleton _ _, fun other hother event hevent => ?_⟩
      · exact hall earlier event (later ++ [last]) (by simp [hsplit])
      · rw [List.mem_singleton.1 hevent]
        exact hrelated front last (hall front last [] rfl) other hother

theorem mem_blocksRun {pool generation blockId : ℕ} {events : List Event} :
    blockId ∈ blocksRun pool generation events ↔ ∃ rank params,
      Event.ran pool generation rank blockId params ∈ events := by
  rw [blocksRun, List.mem_filterMap]
  constructor
  · rintro ⟨event, hmem, hevent⟩
    cases event with
    | ran pool' generation' rank other params =>
        simp only [Option.ite_none_right_eq_some, Option.some.injEq] at hevent
        obtain ⟨⟨rfl, rfl⟩, rfl⟩ := hevent
        exact ⟨rank, params, hmem⟩
    | _ => simp at hevent
  · rintro ⟨rank, params, hmem⟩
    exact ⟨_, hmem, by simp⟩

theorem prefix_of_mem {Shown : Type*} {earlier front events : List Shown}
    {event : Shown} (hearlier : earlier ++ [event] <+: events)
    (hfront : front <+: events) (hmem : event ∈ front)
    (hnew : event ∉ earlier) : earlier ++ [event] <+: front := by
  obtain hahead | hbehind := List.prefix_or_prefix_of_prefix hearlier hfront
  · exact hahead
  · cases List.prefix_concat_iff.1 hbehind with
    | inl heq => exact heq ▸ List.prefix_refl _
    | inr hshort => exact absurd (hshort.subset hmem) hnew

section Right

variable {program : Program} {events : List Event}
variable (hright : AllEvents (EventRight program) events)

include hright

/-- A block is shown once. -/
theorem nodup_pieces : (events.filterMap Event.piece).Nodup := by
  rw [List.Nodup, List.pairwise_filterMap]
  apply hright.pairwise
  rintro earlier event hjudge other hother piece hfirst _ hsecond rfl
  obtain ⟨rank, rfl⟩ := piece_eq_some.1 hfirst
  obtain ⟨rank', rfl⟩ := piece_eq_some.1 hsecond
  exact hjudge.1.2.1 (mem_blocksRun.2 ⟨rank, piece.params, hother⟩)

/-- The generations that are taken are different. -/
theorem nodup_dispatched : (events.flatMap (·.dispatched program)).Nodup := by
  rw [List.nodup_flatMap]
  constructor
  · intro event _
    cases event with
    | called pool generation call =>
        apply List.nodup_range.map
        intro left right hsame
        simpa using hsame
    | _ => exact List.nodup_nil
  · apply hright.pairwise
    intro earlier event hjudge other hother piece hfirst hsecond
    obtain ⟨first, rfl, -⟩ := mem_dispatched.1 hfirst
    obtain ⟨second, rfl, -⟩ := mem_dispatched.1 hsecond
    exact hjudge.1 first hother

/-- A block is run with the parameters of its call. -/
theorem ran_params {pool generation rank blockId : ℕ} {params : Params}
    {call : Call}
    (hran : Event.ran pool generation rank blockId params ∈ events)
    (hcalled : Event.called pool generation call ∈ events) :
    params = call.params program := by
  obtain ⟨earlier, later, hsplit⟩ := List.append_of_mem hran
  obtain ⟨⟨⟨other, hother, hparams, -⟩, -⟩, -⟩ := hright _ _ _ hsplit
  have hmem : Event.called pool generation other ∈ events := by
    rw [hsplit]
    exact List.mem_append_left _ hother
  rw [hparams, hright.called_unique hmem hcalled]

/-- Every call that has returned has run its blocks, and nothing else has been
run. -/
theorem pieces_perm
    (hleft : ∀ pool generation, ¬ LeftEarly pool generation events)
    (hreturned : ∀ pool generation call,
      Event.called pool generation call ∈ events →
      Event.returned pool generation ∈ events) :
    (events.filterMap Event.piece).Perm
      (events.flatMap (·.dispatched program)) := by
  apply (List.perm_ext_iff_of_nodup (nodup_pieces hright)
    (nodup_dispatched hright)).2
  intro piece
  rw [List.mem_flatMap, List.mem_filterMap]
  constructor
  · rintro ⟨event, hmem, hpiece⟩
    obtain ⟨rank, rfl⟩ := piece_eq_some.1 hpiece
    obtain ⟨earlier, later, hsplit⟩ := List.append_of_mem hmem
    obtain ⟨⟨⟨call, hcalled, hparams, hblock⟩, -⟩, -⟩ :=
      hright _ _ _ hsplit
    refine ⟨_, ?_, mem_dispatched.2 ⟨call, rfl, hparams, hblock⟩⟩
    rw [hsplit]
    exact List.mem_append_left _ hcalled
  · rintro ⟨event, hmem, hpiece⟩
    obtain ⟨call, rfl, hparams, hblock⟩ := mem_dispatched.1 hpiece
    have hreturn := hreturned _ _ _ hmem
    obtain ⟨earlier, later, hsplit⟩ := List.append_of_mem hreturn
    obtain ⟨⟨-, other, hother, hperm⟩, -⟩ := hright _ _ _ hsplit
    have hsub : earlier ⊆ events := by
      rw [hsplit]
      exact List.subset_append_left _ _
    obtain rfl : other = call := hright.called_unique (hsub hother) hmem
    have hrun : piece.blockId ∈
        blocksRun piece.pool piece.generation earlier := by
      apply (hperm ?_).symm.subset
      · rw [← hparams]
        exact List.mem_range.2 hblock
      · rintro ⟨rank, hmem⟩
        exact hleft _ _ ⟨rank, hsub hmem⟩
    obtain ⟨rank, params, hran⟩ := mem_blocksRun.1 hrun
    refine ⟨_, hsub hran, piece_eq_some.2 ⟨rank, ?_⟩⟩
    rw [hparams, ran_params hright (hsub hran) hmem]

end Right

/-! ## Blocks of different calls -/

section Ended

variable {program : Program} {allowed : State → Action → Prop}
variable {trace : List Observation} {state : State}
variable (hcareful : ∀ {ranks trace state action},
  Inv program ranks trace state → allowed state action →
    Careful program state action)

include hcareful

/-- The blocks of a dispatch have ended at its return. -/
theorem closed_of_returned
    (run : Run (observed program) allowed start trace state)
    {earlier later : List Observation} {observation : Observation}
    (hsplit : trace = earlier ++ observation :: later) {piece : Piece}
    (hreturn : observation.1 =
      some (.returned piece.pool piece.generation))
    (hopened : piece ∈ trace.filterMap pieces.opens) :
    piece ∈ earlier.filterMap pieces.closes := by
  apply closed_at_return hcareful run earlier observation later hsplit _ _
    hreturn
  obtain ⟨opening, hmem, hopens⟩ := List.mem_filterMap.1 hopened
  rw [hsplit, List.mem_append, List.mem_cons] at hmem
  obtain hearlier | rfl | hlater := hmem
  · exact List.mem_filterMap.2 ⟨opening, hearlier, hopens⟩
  · simp [pieces, hreturn, Event.piece] at hopens
  · -- no block is run behind the return
    exfalso
    obtain ⟨middle, rest, rfl⟩ := List.append_of_mem hlater
    obtain ⟨event, hevent, hpiece⟩ := Option.bind_eq_some_iff.1 hopens
    obtain ⟨rank, rfl⟩ := piece_eq_some.1 hpiece
    have hsplit' : trace = (earlier ++ observation :: middle) ++
        opening :: rest := by
      rw [hsplit]
      simp
    have hright := events_of_run hcareful (run_of_observed run) _ _ _
      (hsplit' ▸ eventsOf_split hevent)
    apply hright.1.2.2
    rw [eventsOf_split hreturn]
    simp

/-- The blocks of a call begin when those of all earlier calls have ended. -/
theorem separated_of_run
    (run : Run (observed program) allowed start trace state) :
    (eventsOf trace).Pairwise fun early late =>
      ∀ first ∈ early.dispatched program, ∀ second ∈ late.dispatched program,
        first ∈ trace.filterMap pieces.opens →
          Separated pieces trace first second := by
  have hbase := run_of_observed run
  have hright : AllEvents (EventRight program) (eventsOf trace) :=
    events_of_run hcareful hbase
  have hall : AllEvents (fun earlier event =>
      earlier ++ [event] <+: eventsOf trace ∧ EventRight program earlier event ∧
        ∀ pool generation call, event = .called pool generation call →
          pool = call.pool ∧ ∀ pool generation call,
            Event.called pool generation call ∈ earlier →
            Event.returned pool generation ∈ earlier) (eventsOf trace) :=
    fun earlier event later hsplit =>
      ⟨⟨later, by simp [hsplit]⟩, hright _ _ _ hsplit,
        returned_before_call hbase _ _ _ hsplit⟩
  apply hall.pairwise
  rintro earlier event ⟨hpart, hevent, hreturned⟩ other hother first hfirst
    second hsecond hopened front opening back hsplit hopens
  obtain ⟨call, rfl, -⟩ := mem_dispatched.1 hfirst
  obtain ⟨call', rfl, -⟩ := mem_dispatched.1 hsecond
  have hfirstReturned := (hreturned _ _ _ rfl).2 _ _ _ hother
  -- the call of the second block is in front of it
  obtain ⟨shown, hshown, hpiece⟩ := Option.bind_eq_some_iff.1 hopens
  obtain ⟨rank, rfl⟩ := piece_eq_some.1 hpiece
  have hevents : eventsOf trace = _ := hsplit ▸ eventsOf_split hshown
  obtain ⟨⟨⟨call'', hcalled, -⟩, -⟩, -⟩ := hright _ _ _ hevents
  have hfront : eventsOf front <+: eventsOf trace := by
    rw [hevents]
    exact List.prefix_append _ _
  obtain rfl : call'' = call' := by
    apply hright.called_unique (hfront.subset hcalled)
    exact hpart.subset (by simp)
  have hahead := prefix_of_mem hpart hfront hcalled (hevent.1 call'')
  have hbehind : Event.returned first.pool first.generation ∈ eventsOf front :=
    hahead.subset (List.mem_append_left _ hfirstReturned)
  -- and so is the return of the first block's call
  obtain ⟨returning, hmem, hreturn⟩ := List.mem_filterMap.1 hbehind
  obtain ⟨ahead, behind, rfl⟩ := List.append_of_mem hmem
  have hclosed := closed_of_returned hcareful run
    (hsplit.trans (List.append_assoc _ _ _)) hreturn hopened
  rw [List.filterMap_append, List.mem_append]
  exact .inl hclosed

end Ended

/-! ## Loops over indices -/

/-- The indices of a tile. -/
def indices (bounds : Tile) : List ℕ :=
  List.range' bounds.1 (bounds.2 - bounds.1)

theorem indices_of_partitions {lo last : ℕ} {tiles : List Tile}
    (hpartitions : Partitions lo last tiles) :
    lo ≤ last ∧ tiles.flatMap indices = List.range' lo (last - lo) := by
  induction tiles generalizing lo with
  | nil =>
      obtain rfl : lo = last := hpartitions
      simp
  | cons head rest ih =>
      obtain ⟨hlo, hhead, hrest⟩ := hpartitions
      obtain ⟨hle, hindices⟩ := ih hrest
      have hjoin : head.2 = head.1 + 1 * (head.2 - head.1) := by omega
      have hsum : last - head.1 = (head.2 - head.1) + (last - head.2) := by
        omega
      refine ⟨by omega, ?_⟩
      rw [List.flatMap_cons, hindices, ← hlo, indices, hsum,
        ← List.range'_append, ← hjoin]

def Piece.tile (piece : Piece) : Tile :=
  BlockArithmetic.tile piece.params.first piece.params.last piece.params.chunk
    piece.blockId

def Event.call : Event → Option Call
  | .called _ _ call => some call
  | _ => none

/-- The calls that were dispatched, in order. -/
def calls (trace : List Event) : List Call :=
  trace.filterMap Event.call

section Bodies

variable {Memory : Type*} (body : ℕ → ℕ → List (Memory → Memory))

/-- What a block does whose body works through the indices of its range. -/
def Piece.work (piece : Piece) : List (Memory → Memory) :=
  (indices piece.tile).flatMap (body piece.params.fnPtr)

/-- The plain loop of a call. -/
def Call.loop (call : Call) : List (Memory → Memory) :=
  (List.range' call.first (call.last - call.first)).flatMap
    (body call.fnPtr)

/-- A `parallelFor` in machine words, the end of the last block among them, and
with indices that do not interfere with each other. -/
structure Call.Parallel (program : Program) (call : Call) : Prop where
  primitive : call.primitive program = .parallelFor
  last : call.last < 2 ^ 64
  chunk : (call.entry program).chunk < 2 ^ 64
  participants : call.participants program < 2 ^ 32
  fits : Fits call.first (call.shape program)
  commutes : ∀ low high, call.first ≤ low → low < high → high < call.last →
    Commutes (body call.fnPtr high) (body call.fnPtr low)

variable {body} {program : Program} {call : Call}

/-- The blocks of a call partition its range. -/
theorem Call.Parallel.partitions (hparallel : call.Parallel body program)
    (hpositive : 0 < call.participants program)
    (hrange : call.first < call.last) :
    Partitions call.first call.last
      (blockTiles call.first call.last (call.shape program)) := by
  apply (blockTiles_partitions_iff hparallel.last hrange ?_).2 hparallel.fits
  have hfor := hparallel.primitive
  unfold Call.primitive at hfor
  unfold Call.shape
  split at hfor
  next balance hkind =>
    simp only [hkind]
    exact fillBlockShape_counts hparallel.last hrange
      ⟨hpositive, hparallel.participants⟩ hparallel.chunk
  next => simp at hfor

theorem tiles_dispatched (pool generation : ℕ) :
    ((Event.called pool generation call).dispatched program).map Piece.tile =
      blockTiles call.first call.last (call.shape program) := by
  simp only [Event.dispatched, List.map_map]
  rfl

/-- The blocks of a call, one after another, are its loop. -/
theorem work_dispatched (pool generation : ℕ)
    (hpartitions : Partitions call.first call.last
      (blockTiles call.first call.last (call.shape program))) :
    ((Event.called pool generation call).dispatched program).flatMap
      (Piece.work body) = call.loop body := by
  rw [Call.loop, ← (indices_of_partitions hpartitions).2,
    ← tiles_dispatched pool generation, List.flatMap_map, List.flatMap_assoc]
  apply List.flatMap_congr
  intro piece hpiece
  obtain ⟨_, hcall, hparams, -⟩ := mem_dispatched.1 hpiece
  obtain ⟨-, -, rfl⟩ := (Event.called.injEq ..).mp hcall
  rw [Piece.work, hparams]
  rfl

/-- The blocks of a call do not interfere with each other. -/
theorem commutes_dispatched (hparallel : call.Parallel body program)
    (pool generation : ℕ)
    (hpartitions : Partitions call.first call.last
      (blockTiles call.first call.last (call.shape program))) :
    ((Event.called pool generation call).dispatched program).Pairwise
      fun first second =>
        Commutes (second.work body) (first.work body) := by
  obtain ⟨-, hindices⟩ := indices_of_partitions hpartitions
  rw [← tiles_dispatched pool generation, List.flatMap_map] at hindices
  have hsorted : (List.range' call.first (call.last - call.first)).Pairwise
      (· < ·) := List.pairwise_lt_range'
  rw [← hindices, List.pairwise_flatMap] at hsorted
  have hbody : ∀ piece ∈ (Event.called pool generation call).dispatched program,
      ∀ f ∈ piece.work body, ∃ index ∈ indices piece.tile,
        (call.first ≤ index ∧ index < call.last) ∧
        f ∈ body call.fnPtr index := by
    intro piece hpiece f hf
    obtain ⟨index, hindex, hf⟩ := List.mem_flatMap.1 hf
    have hmem : index ∈ List.range' call.first (call.last - call.first) := by
      rw [← hindices]
      exact List.mem_flatMap.2 ⟨piece, hpiece, hindex⟩
    rw [List.mem_range'_1] at hmem
    obtain ⟨_, hcall, hparams, -⟩ := mem_dispatched.1 hpiece
    obtain ⟨-, -, rfl⟩ := (Event.called.injEq ..).mp hcall
    rw [hparams] at hf
    exact ⟨index, hindex, by omega, hf⟩
  apply hsorted.2.imp_of_mem
  intro first second hfirst hsecond hless g hg f hf
  obtain ⟨low, hlow, hlowRange, hf⟩ := hbody first hfirst f hf
  obtain ⟨high, hhigh, hhighRange, hg⟩ := hbody second hsecond g hg
  exact hparallel.commutes low high hlowRange.1 (hless low hlow high hhigh)
    hhighRange.2 g hg f hf

/-- The blocks of a history of calls are their loops. -/
theorem work_history {trace : List Event}
    (hpartitions : ∀ call ∈ calls trace, Partitions call.first call.last
      (blockTiles call.first call.last (call.shape program))) :
    (trace.flatMap (·.dispatched program)).flatMap (Piece.work body) =
      (calls trace).flatMap (Call.loop body) := by
  induction trace with
  | nil => rfl
  | cons event trace ih =>
      have hrest := ih fun call hcall => hpartitions call (by
        rw [calls, List.mem_filterMap] at hcall ⊢
        obtain ⟨other, hmem, hother⟩ := hcall
        exact ⟨other, List.mem_cons_of_mem _ hmem, hother⟩)
      rw [List.flatMap_cons, List.flatMap_append, hrest]
      cases event with
      | called pool generation call =>
          rw [work_dispatched pool generation (hpartitions call (by
            simp [calls, Event.call]))]
          rfl
      | _ => rfl

end Bodies

/-! ## The memory behind a run -/

/-- No share is left early. -/
def Action.Stays (action : Action) : Prop :=
  action ≠ .producerLeaves ∧ ∀ pool slot, action ≠ .workerLeaves pool slot

/-- A call has more than one block, so that it is dispatched. -/
def FansOut (program : Program) : Action → Prop
  | .call call => 1 < (call.shape program).blockCount
  | _ => True

instance (program : Program) : DecidablePred (FansOut program)
  | .call _ => inferInstanceAs (Decidable (_ < _))
  | .producer | .cover | .poll _ | .producerLeaves | .worker _ _
  | .workerLeaves _ _ => isTrue trivial

/-- A careful run of calls that are dispatched, with no share left early. -/
def Loops (program : Program) (state : State) (action : Action) : Prop :=
  Careful program state action ∧ action.Stays ∧ FansOut program action

theorem mem_calls {trace : List Event} {call : Call} :
    call ∈ calls trace ↔ ∃ pool generation,
      Event.called pool generation call ∈ trace := by
  rw [calls, List.mem_filterMap]
  constructor
  · rintro ⟨event, hmem, hevent⟩
    cases event <;> simp [Event.call] at hevent
    subst hevent
    exact ⟨_, _, hmem⟩
  · rintro ⟨pool, generation, hmem⟩
    exact ⟨_, hmem, rfl⟩

theorem inside_start (program : Program) (party : Option (ℕ × ℕ)) :
    (start.inside program party) = none := by
  cases party <;> rfl

/-- Where the indices of each call do not interfere, dispatched calls that have
all returned leave the memory behind that their plain loops make, one after
another, for every interleaving of the threads and of the operations inside the
blocks. -/
theorem loopsSerial_of_run {Memory : Type*} (program : Program)
    (body : ℕ → ℕ → List (Memory → Memory)) {memory : Memory}
    {trace : List Observation}
    {state : SharedMemory.State State Piece Memory}
    (run : Run (withMemory (observed program) pieces (Piece.work body))
      (allows (Loops program)) (begin start memory) trace state)
    (hparallel : ∀ call ∈ calls (eventsOf trace), call.Parallel body program)
    (hreturned : ∀ pool generation call,
      Event.called pool generation call ∈ eventsOf trace →
      Event.returned pool generation ∈ eventsOf trace) :
    state.memory =
      perform ((calls (eventsOf trace)).flatMap (Call.loop body)) memory := by
  have hcareful : ∀ {ranks trace state action}, Inv program ranks trace state →
      Loops program state action → Careful program state action :=
    fun _ hallowed => hallowed.1
  have hobserved := SharedMemory.control_of_allowed run
  have hbase := run_of_observed hobserved
  have hright : AllEvents (EventRight program) (eventsOf trace) :=
    events_of_run hcareful hbase
  have hleft := not_leftEarly_of_run (fun _ _ hallowed => hallowed.2.1) hbase
  have hperm := pieces_perm hright hleft hreturned
  have hpartitions : ∀ call ∈ calls (eventsOf trace), Partitions call.first
      call.last (blockTiles call.first call.last (call.shape program)) := by
    intro call hcall
    obtain ⟨pool, generation, hcalled⟩ := mem_calls.1 hcall
    exact (hparallel call hcall).partitions (program.participants_pos _)
      (admissible_of_called hcareful hbase hcalled).2.2
  have hopened : ∀ piece ∈ (eventsOf trace).flatMap (·.dispatched program),
      piece ∈ trace.filterMap pieces.opens := by
    intro piece hpiece
    rw [opens_eq]
    exact hperm.symm.subset hpiece
  rw [← work_history hpartitions]
  apply SharedMemory.serial_of_run (nodup_dispatched hright) run.unrestricted
  · refine ⟨opens_eq trace ▸ hperm, fun piece hpiece => ?_,
      SharedMemory.matched_of_occupancy (occupancy program)
        (inside_start program) hobserved⟩
    obtain ⟨event, hmem, hevent⟩ := List.mem_flatMap.1 hpiece
    obtain ⟨call, rfl, -⟩ := mem_dispatched.1 hevent
    obtain ⟨observation, hmem, hreturn⟩ :=
      List.mem_filterMap.1 (hreturned _ _ _ hmem)
    obtain ⟨earlier, later, hsplit⟩ := List.append_of_mem hmem
    have hclosed := closed_of_returned hcareful hobserved hsplit hreturn
      (hopened piece hpiece)
    rw [hsplit, List.filterMap_append, List.mem_append]
    exact .inl hclosed
  · rw [List.pairwise_flatMap]
    constructor
    · intro event hevent
      cases event with
      | called pool generation call =>
          have hcall : call ∈ calls (eventsOf trace) :=
            mem_calls.2 ⟨pool, generation, hevent⟩
          apply (commutes_dispatched (hparallel call hcall) pool generation
            (hpartitions call hcall)).imp
          exact fun hcommutes => .inl hcommutes
      | _ => exact .nil
    · apply (separated_of_run hcareful hobserved).imp_of_mem
      intro early late hearly _ hseparated first hfirst second hsecond
      apply Or.inr (hseparated first hfirst second hsecond (hopened first ?_))
      exact List.mem_flatMap.2 ⟨early, hearly, hfirst⟩

/-- One body adds its index, the other doubles. -/
def addThenDouble (fnPtr index : ℕ) : List (ℕ → ℕ) :=
  if fnPtr = 100 then [fun memory => memory + index]
  else [fun memory => 2 * memory]

/-- Every generation that was taken has returned. -/
def allReturned (trace : List Event) : Bool :=
  trace.all fun event => match event with
    | .called pool generation _ => trace.contains (.returned pool generation)
    | _ => true

theorem returned_of_all {trace : List Event}
    (hall : allReturned trace = true) {pool generation : ℕ} {call : Call}
    (hcalled : Event.called pool generation call ∈ trace) :
    Event.returned pool generation ∈ trace := by
  have hevent := List.all_eq_true.1 hall _ hcalled
  simpa using hevent

theorem parallel_bodyCall (fnPtr : ℕ) :
    (bodyCall fnPtr).Parallel addThenDouble onePool where
  primitive := rfl
  last := by simp [bodyCall]
  chunk := by simp [Call.entry, onePool]
  participants := by simp [Call.participants, onePool]
  fits := by
    change Fits 0 ((bodyCall 0).shape onePool)
    decide
  commutes low high _ _ _ f hf g hg memory := by
    change f ∈ addThenDouble fnPtr high at hf
    change g ∈ addThenDouble fnPtr low at hg
    unfold addThenDouble at hf hg
    split_ifs at hf hg <;> simp only [List.mem_singleton] at hf hg <;>
      subst hf hg <;> grind

theorem loopsSerial_twoBodies :
    ∃ trace state, Run
      (withMemory (observed onePool) pieces (Piece.work addThenDouble))
      (allows (Loops onePool)) (begin start 1) trace state ∧ state.memory = 7424 := by
  have hchecked : ∃ events control, Run (machine onePool)
      (Loops onePool) start events control ∧
      (calls events = [bodyCall 100, bodyCall 200] && allReturned events) =
        true := by
    apply run_of_checked (machine onePool)
      (fun state action => decide
        ((AckInTime state action ∧ DescriptorFree onePool state action ∧
          FilledHere onePool state action) ∧ PlainFor onePool 0 action ∧
            FansOut onePool action))
      (fun _ => True) _ (fun _ _ _ => trivial) start trivial twoBodies
      (fun events _ => calls events = [bodyCall 100, bodyCall 200] &&
        allReturned events)
    · decide +kernel
    · intro state action _ hcheck
      obtain ⟨hcareful, hplain, hfans⟩ := of_decide_eq_true hcheck
      exact ⟨hcareful, hplain.stays, hfans⟩
  obtain ⟨events, control, hbase, hcheck⟩ := hchecked
  rw [Bool.and_eq_true] at hcheck
  obtain ⟨hcalls, hall⟩ := hcheck
  have hcalls := of_decide_eq_true hcalls
  obtain ⟨trace, rfl, hobserved⟩ := exists_observed hbase
  have hlift : ∃ state, Run
      (withMemory (observed onePool) pieces (Piece.work addThenDouble))
      (allows (Loops onePool)) (begin start 1) trace state ∧ state.control = control :=
    SharedMemory.exists_allowed hobserved 1
  obtain ⟨state, run, -⟩ := hlift
  refine ⟨trace, state, run, ?_⟩
  rw [loopsSerial_of_run onePool addThenDouble run ?_ fun _ _ _ hcalled =>
    returned_of_all hall hcalled, hcalls]
  · decide
  · intro call hcall
    rw [hcalls] at hcall
    simp only [List.mem_cons, List.not_mem_nil, or_false] at hcall
    obtain rfl | rfl := hcall <;> exact parallel_bodyCall _

end Citor.JobCaches
