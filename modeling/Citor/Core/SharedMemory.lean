import Citor.Core.Interleaving

/-!
# User code on shared memory

A machine opens and closes blocks of user code.  In between a block works on a
memory that all blocks share, one atomic operation at a time and in any
interleaving.  Where every two blocks commute or are kept apart by the machine,
a run leaves the memory behind that the blocks make one after another.
-/

namespace Citor.SharedMemory

open Interleaving

/-! ## Histories of operations -/

section Histories

variable {Memory Block : Type*}

/-- Operations one after another. -/
def perform (operations : List (Memory → Memory)) (memory : Memory) : Memory :=
  operations.foldl (fun memory operation => operation memory) memory

/-- No operation of one list interferes with one of the other. -/
def Commutes (left right : List (Memory → Memory)) : Prop :=
  ∀ f ∈ left, ∀ g ∈ right, ∀ memory, f (g memory) = g (f memory)

@[simp]
theorem perform_nil (memory : Memory) : perform [] memory = memory := rfl

@[simp]
theorem perform_cons (operation : Memory → Memory)
    (operations : List (Memory → Memory)) (memory : Memory) :
    perform (operation :: operations) memory =
      perform operations (operation memory) := rfl

theorem perform_append (front back : List (Memory → Memory))
    (memory : Memory) :
    perform (front ++ back) memory = perform back (perform front memory) :=
  List.foldl_append

/-- An operation moves past a list that it does not interfere with. -/
theorem perform_past {f : Memory → Memory}
    {operations : List (Memory → Memory)}
    (hcommutes : ∀ g ∈ operations, ∀ memory, f (g memory) = g (f memory))
    (memory : Memory) :
    perform operations (f memory) = f (perform operations memory) := by
  induction operations generalizing memory with
  | nil => rfl
  | cons g operations ih =>
      rw [perform_cons, perform_cons, ← hcommutes g (by simp)]
      exact ih (fun other hmem => hcommutes other (by simp [hmem])) _

variable [DecidableEq Block]

/-- What a block does in a history. -/
def partOf (block : Block) (history : List (Block × (Memory → Memory))) :
    List (Memory → Memory) :=
  (history.filter fun work => work.1 = block).map Prod.snd

/-- What the other blocks do. -/
def without (block : Block) (history : List (Block × (Memory → Memory))) :
    List (Block × (Memory → Memory)) :=
  history.filter fun work => work.1 ≠ block

variable {history : List (Block × (Memory → Memory))}

/-- A block's operations move to the front of a history. -/
theorem perform_gather {block : Block}
    (hpast : history.Pairwise fun early late =>
      early.1 ≠ block → late.1 = block →
        ∀ memory, early.2 (late.2 memory) = late.2 (early.2 memory))
    (memory : Memory) :
    perform (history.map Prod.snd) memory =
      perform ((without block history).map Prod.snd)
        (perform (partOf block history) memory) := by
  induction history generalizing memory with
  | nil => rfl
  | cons work history ih =>
      obtain ⟨hhead, hrest⟩ := List.pairwise_cons.1 hpast
      rw [List.map_cons, perform_cons, ih hrest]
      by_cases hblock : work.1 = block
      · simp [partOf, without, hblock]
      · have hmove : perform (partOf block history) (work.2 memory) =
            work.2 (perform (partOf block history) memory) := by
          apply perform_past
          intro operation hmem
          obtain ⟨late, hlate, rfl⟩ := List.mem_map.1 hmem
          obtain ⟨hlate, hsame⟩ := List.mem_filter.1 hlate
          exact hhead late hlate hblock (of_decide_eq_true hsame)
        rw [hmove]
        simp [partOf, without, hblock]

theorem partOf_without {block other : Block} (hne : other ≠ block) :
    partOf other (without block history) = partOf other history := by
  unfold partOf without
  rw [List.filter_filter]
  congr 2
  funext work
  by_cases hsame : work.1 = other
  · simp [hsame, hne]
  · simp [hsame]

theorem mem_partOf {block : Block} {operation : Memory → Memory} :
    operation ∈ partOf block history ↔ (block, operation) ∈ history := by
  simp [partOf]

/-- A history whose blocks commute, or come in order, amounts to the blocks one
after another. -/
theorem perform_eq_serial {body : Block → List (Memory → Memory)}
    {order : List Block} (hnodup : order.Nodup)
    (hblocks : ∀ work ∈ history, work.1 ∈ order)
    (hparts : ∀ block ∈ order, partOf block history = body block)
    (hpairs : order.Pairwise fun first second =>
      Commutes (body second) (body first) ∨
        history.Pairwise fun early late =>
          ¬ (early.1 = second ∧ late.1 = first))
    (memory : Memory) :
    perform (history.map Prod.snd) memory =
      perform (order.flatMap body) memory := by
  induction order generalizing history memory with
  | nil =>
      have hnone : history = [] := List.eq_nil_iff_forall_not_mem.2 fun work
        hmem => by simpa using hblocks work hmem
      rw [hnone]
      rfl
  | cons block order ih =>
      obtain ⟨hfresh, hnodup⟩ := List.nodup_cons.1 hnodup
      obtain ⟨hfirst, hpairs⟩ := List.pairwise_cons.1 hpairs
      have hpast : history.Pairwise fun early late =>
          early.1 ≠ block → late.1 = block →
            ∀ memory, early.2 (late.2 memory) = late.2 (early.2 memory) := by
        rw [List.pairwise_iff_forall_sublist]
        intro early late hsub hearly hlate
        have hmems := hsub.subset
        have hother : early.1 ∈ order := by
          simpa [hearly] using hblocks early (hmems (by simp))
        cases hfirst early.1 hother with
        | inl hcommutes =>
            apply hcommutes
            · rw [← hparts _ (by simp [hother]), mem_partOf]
              exact hmems (by simp)
            · rw [← hparts block (by simp), mem_partOf, ← hlate]
              exact hmems (by simp)
        | inr hapart =>
            exact absurd ⟨rfl, hlate⟩
              (List.pairwise_iff_forall_sublist.1 hapart hsub)
      have hrest : ∀ work ∈ without block history, work.1 ∈ order := by
        intro work hmem
        obtain ⟨hmem, hne⟩ := List.mem_filter.1 hmem
        simpa [of_decide_eq_true hne] using hblocks work hmem
      calc
        perform (history.map Prod.snd) memory =
            perform ((without block history).map Prod.snd)
              (perform (partOf block history) memory) :=
          perform_gather hpast memory
        _ = perform (order.flatMap body)
              (perform (partOf block history) memory) := by
          apply ih hnodup hrest
          · intro other hother
            rw [partOf_without (ne_of_mem_of_not_mem hother hfresh)]
            exact hparts other (by simp [hother])
          · apply hpairs.imp
            intro first second hpair
            exact hpair.imp_right (·.sublist (List.filter_sublist))
        _ = perform ((block :: order).flatMap body) memory := by
          rw [hparts block (by simp), List.flatMap_cons, perform_append]

end Histories

/-! ## A machine with a memory -/

/-- The block that an event opens or closes, if any. -/
structure Brackets (Event Block : Type*) where
  opens : Event → Option Block
  closes : Event → Option Block

/-- The machine's state, the memory and what the open blocks have yet to do. -/
structure State (Control Block Memory : Type*) where
  control : Control
  memory : Memory
  left : Block → List (Memory → Memory)

inductive Action (Step Block : Type*)
  /-- A step of the machine. -/
  | control (step : Step)
  /-- The next operation of an open block. -/
  | work (block : Block)

section Machines

variable {Control Step Event Block Memory : Type*} [DecidableEq Block]
variable (machine : Machine Control Step Event)
variable (brackets : Brackets Event Block)
variable (body : Block → List (Memory → Memory))

/-- A block closes behind its last operation. -/
def State.mayEmit (state : State Control Block Memory)
    (event : Option Event) : Bool :=
  (event.bind brackets.closes).all fun block => (state.left block).isEmpty

/-- A block that opens has its whole body to do. -/
def State.opened (state : State Control Block Memory) (event : Option Event) :
    Block → List (Memory → Memory) :=
  match event.bind brackets.opens with
  | some block => Function.update state.left block (body block)
  | none => state.left

/-- The machine together with the user code that it calls. -/
def withMemory :
    Machine (State Control Block Memory) (Action Step Block) Event where
  step state
    | .control step =>
        (machine.step state.control step).bind fun (after, event) =>
          if state.mayEmit brackets event then
            some (⟨after, state.memory, state.opened brackets body event⟩,
              event)
          else none
    | .work block =>
        match state.left block with
        | operation :: rest =>
            some (⟨state.control, operation state.memory,
              Function.update state.left block rest⟩, none)
        | [] => none

/-- Nothing is open. -/
def begin (control : Control) (memory : Memory) :
    State Control Block Memory where
  control := control
  memory := memory
  left := fun _ => []

/-- The machine keeps one block away from another: the second opens behind the
end of the first. -/
def Separated (trace : List Event) (first second : Block) : Prop :=
  ∀ earlier event later, trace = earlier ++ event :: later →
    brackets.opens event = some second →
      first ∈ earlier.filterMap brackets.closes

/-- The blocks of a complete run: each opens once and closes behind that. -/
structure Bracketed (trace : List Event) (order : List Block) : Prop where
  opened : (trace.filterMap brackets.opens).Perm order
  closed : ∀ block ∈ order, block ∈ trace.filterMap brackets.closes
  matched : ∀ earlier event later, trace = earlier ++ event :: later →
    ∀ block, brackets.closes event = some block →
      block ∈ earlier.filterMap brackets.opens

variable {machine brackets body}
variable {start : Control} {initial : Memory}
variable {trace : List Event} {state : State Control Block Memory}

/-- The steps of the machine are restricted, the work is not. -/
def allows (allowed : Control → Step → Prop) :
    State Control Block Memory → Action Step Block → Prop
  | state, .control step => allowed state.control step
  | _, .work _ => True

/-- The machine runs as it does without the memory. -/
theorem control_of_allowed {allowed : Control → Step → Prop}
    (run : Run (withMemory machine brackets body) (allows allowed)
      (begin start initial) trace state) :
    Run machine allowed start trace state.control := by
  apply run.invariant fun trace state =>
    Run machine allowed start trace state.control
  · exact .start
  · intro trace before action after event hrun hallowed hstep
    cases action with
    | control step =>
        obtain ⟨⟨control, emitted⟩, hcontrol, hstep⟩ :=
          Option.bind_eq_some_iff.1 hstep
        dsimp only at hstep
        split_ifs at hstep
        obtain ⟨rfl, rfl⟩ := Prod.mk.inj (Option.some.inj hstep)
        exact hrun.next hallowed hcontrol
    | work block =>
        simp only [withMemory] at hstep
        split at hstep
        · obtain ⟨rfl, rfl⟩ := Prod.mk.inj (Option.some.inj hstep)
          simpa using hrun
        · simp at hstep

theorem control_of_run
    (run : Reaches (withMemory machine brackets body) (begin start initial)
      trace state) : Reaches machine start trace state.control := by
  apply control_of_allowed
  apply run.mono
  intro state action _
  cases action <;> trivial

/-- A block can always be worked through to its end. -/
theorem exists_worked {allowed : Control → Step → Prop}
    (run : Run (withMemory machine brackets body) (allows allowed)
      (begin start initial) trace state) (block : Block) :
    ∃ after, Run (withMemory machine brackets body) (allows allowed)
      (begin start initial) trace after ∧ after.control = state.control ∧
        after.left block = [] := by
  generalize hleft : state.left block = operations
  induction operations generalizing state with
  | nil => exact ⟨state, run, rfl, hleft⟩
  | cons operation rest ih =>
      have hstep : (withMemory machine brackets body).step state
          (.work block) = some (⟨state.control, operation state.memory,
            Function.update state.left block rest⟩, none) := by
        simp [withMemory, hleft]
      have hwork : allows allowed state (.work block : Action Step Block) :=
        trivial
      have hnext := run.next hwork hstep
      rw [Option.toList_none, List.append_nil] at hnext
      obtain ⟨after, hafter, hcontrol, hdone⟩ := ih hnext (by simp)
      exact ⟨after, hafter, hcontrol, hdone⟩

/-- Every run of the machine is one with a memory. -/
theorem exists_allowed {allowed : Control → Step → Prop} {control : Control}
    (run : Run machine allowed start trace control) (initial : Memory) :
    ∃ state, Run (withMemory machine brackets body) (allows allowed)
      (begin start initial) trace state ∧ state.control = control := by
  induction run with
  | start => exact ⟨begin start initial, .start, rfl⟩
  | @next trace before action after event _ hallowed hstep ih =>
      obtain ⟨state, hrun, rfl⟩ := ih
      have hready : ∃ ready, Run (withMemory machine brackets body)
          (allows allowed) (begin start initial) trace ready ∧
          ready.control = state.control ∧
          ready.mayEmit brackets event = true := by
        cases hcloses : event.bind brackets.closes with
        | none => exact ⟨state, hrun, rfl, by simp [State.mayEmit, hcloses]⟩
        | some block =>
            obtain ⟨ready, hready, hcontrol, hdone⟩ := exists_worked hrun block
            exact ⟨ready, hready, hcontrol, by
              simp [State.mayEmit, hcloses, hdone]⟩
      obtain ⟨ready, hready, hcontrol, hmay⟩ := hready
      have hnext : (withMemory machine brackets body).step ready
          (.control action) = some (⟨after, ready.memory,
            ready.opened brackets body event⟩, event) := by
        simp [withMemory, hcontrol, hstep, hmay]
      have hmayStep : allows allowed ready (.control action) := by
        rw [allows, hcontrol]
        exact hallowed
      exact ⟨_, hready.next hmayStep hnext, rfl⟩

theorem exists_run {control : Control}
    (run : Reaches machine start trace control) (initial : Memory) :
    ∃ state, Reaches (withMemory machine brackets body) (begin start initial)
      trace state ∧ state.control = control := by
  have hlift : ∃ state, Run (withMemory machine brackets body)
      (allows fun _ _ => True) (begin start initial) trace state ∧
        state.control = control := exists_allowed run initial
  obtain ⟨state, hrun, hcontrol⟩ := hlift
  exact ⟨state, hrun.unrestricted, hcontrol⟩

/-! ## Parties inside blocks -/

/-- The blocks that the parties of a machine are in: a step moves one party,
closes the block that it was in and opens the one that it comes to. -/
structure Occupancy (machine : Machine Control Step Event)
    (brackets : Brackets Event Block) (Party : Type*) where
  party : Step → Party
  inside : Control → Party → Option Block
  mover : ∀ {before step after event},
    machine.step before step = some (after, event) →
    inside after (party step) = event.bind brackets.opens
  others : ∀ {before step after event},
    machine.step before step = some (after, event) →
    ∀ other, other ≠ party step → inside after other = inside before other
  closes : ∀ {before step after event},
    machine.step before step = some (after, event) →
    event.bind brackets.closes = inside before (party step)

section Occupied

variable {Party : Type*} (occupancy : Occupancy machine brackets Party)
variable {allowed : Control → Step → Prop} {control : Control}

omit [DecidableEq Block] in
theorem opens_append_event (event : Option Event) (block : Block) :
    block ∈ (trace ++ event.toList).filterMap brackets.opens ↔
      block ∈ trace.filterMap brackets.opens ∨
        event.bind brackets.opens = some block := by
  cases event <;> simp

omit [DecidableEq Block] in
theorem closes_append_event (event : Option Event) (block : Block) :
    block ∈ (trace ++ event.toList).filterMap brackets.closes ↔
      block ∈ trace.filterMap brackets.closes ∨
        event.bind brackets.closes = some block := by
  cases event <;> simp

include occupancy

omit [DecidableEq Block] in
/-- Parties are in blocks that were opened. -/
theorem opened_of_inside
    (hstart : ∀ party, occupancy.inside start party = none)
    (run : Run machine allowed start trace control) {party : Party}
    {block : Block} (hinside : occupancy.inside control party = some block) :
    block ∈ trace.filterMap brackets.opens := by
  induction run generalizing party with
  | start => simp [hstart] at hinside
  | @next trace before step after event _ _ hstep ih =>
      rw [opens_append_event]
      by_cases hparty : party = occupancy.party step
      · rw [hparty, occupancy.mover hstep] at hinside
        exact .inr hinside
      · rw [occupancy.others hstep party hparty] at hinside
        exact .inl (ih hinside)

omit [DecidableEq Block] in
/-- A block is closed behind its opening. -/
theorem matched_of_occupancy
    (hstart : ∀ party, occupancy.inside start party = none)
    (run : Run machine allowed start trace control) :
    ∀ earlier event later, trace = earlier ++ event :: later →
      ∀ block, brackets.closes event = some block →
        block ∈ earlier.filterMap brackets.opens := by
  apply run.at_event (fun trace control =>
      Run machine allowed start trace control)
    (fun earlier event => ∀ block, brackets.closes event = some block →
      block ∈ earlier.filterMap brackets.opens) fun hrun => hrun
  intro trace before step after event hrun _ hstep block hcloses
  apply opened_of_inside occupancy hstart hrun
  rw [← occupancy.closes hstep]
  exact hcloses

omit [DecidableEq Block] in
/-- An opened block has closed, or somebody is in it. -/
theorem closed_or_inside (run : Run machine allowed start trace control)
    {block : Block} (hopened : block ∈ trace.filterMap brackets.opens) :
    block ∈ trace.filterMap brackets.closes ∨
      ∃ party, occupancy.inside control party = some block := by
  induction run with
  | start => simp at hopened
  | @next trace before step after event _ _ hstep ih =>
      rw [closes_append_event]
      rw [opens_append_event] at hopened
      cases hopened with
      | inl hold =>
          obtain hclosed | ⟨party, hinside⟩ := ih hold
          · exact .inl (.inl hclosed)
          · by_cases hparty : party = occupancy.party step
            · rw [hparty, ← occupancy.closes hstep] at hinside
              exact .inl (.inr hinside)
            · rw [← occupancy.others hstep party hparty] at hinside
              exact .inr ⟨party, hinside⟩
      | inr hnew =>
          rw [← occupancy.mover hstep] at hnew
          exact .inr ⟨_, hnew⟩

end Occupied

/-! ## Histories of the parties -/

section Parties

variable (brackets) {party : Event → ℕ} {owner : Block → ℕ}

omit [DecidableEq Block] in
/-- What the events of one party open is what its blocks are. -/
theorem filter_opens
    (howner : ∀ event block, brackets.opens event = some block →
      owner block = party event) (key : ℕ) :
    (trace.filterMap brackets.opens).filter (fun block => owner block = key) =
      (trace.filter fun event => party event = key).filterMap
        brackets.opens := by
  induction trace with
  | nil => rfl
  | cons event trace ih =>
      cases hopens : brackets.opens event with
      | none =>
          by_cases hkey : party event = key <;>
            simp [hopens, hkey, ih]
      | some block =>
          have hparty := howner event block hopens
          by_cases hkey : party event = key <;>
            simp [hopens, hkey, hparty, ih]

omit [DecidableEq Block] in
/-- Blocks that no party opens twice are opened once. -/
theorem nodup_opens
    (howner : ∀ event block, brackets.opens event = some block →
      owner block = party event)
    (honce : ∀ key, ((trace.filter fun event => party event = key).filterMap
      brackets.opens).Nodup) : (trace.filterMap brackets.opens).Nodup := by
  rw [List.nodup_iff_sublist]
  intro block htwice
  have hfiltered := htwice.filter fun other => owner other = owner block
  rw [filter_opens brackets howner] at hfiltered
  exact List.nodup_iff_sublist.1 (honce (owner block)) block
    (by simpa using hfiltered)

omit [DecidableEq Block] in
/-- The parties open every block of `order` once, and nothing else. -/
theorem perm_of_parties {order : List Block} (hnodup : order.Nodup)
    (howner : ∀ event block, brackets.opens event = some block →
      owner block = party event)
    (honce : ∀ key, ((trace.filter fun event => party event = key).filterMap
      brackets.opens).Nodup)
    (hmem : ∀ block, block ∈
      (trace.filter fun event => party event = owner block).filterMap
        brackets.opens ↔ block ∈ order) :
    (trace.filterMap brackets.opens).Perm order := by
  apply (List.perm_ext_iff_of_nodup (nodup_opens brackets howner honce)
    hnodup).2
  intro block
  rw [← hmem block, ← filter_opens brackets howner, List.mem_filter]
  simp

end Parties

/-! ## The memory behind a run -/

/-- A history that accounts for the memory and for what the blocks have left,
in front of the rest of the trace `full`. -/
structure Books (brackets : Brackets Event Block)
    (body : Block → List (Memory → Memory)) (initial : Memory)
    (full trace : List Event) (state : State Control Block Memory)
    (history : List (Block × (Memory → Memory))) : Prop where
  memory : state.memory = perform (history.map Prod.snd) initial
  parts : ∀ block, partOf block history ++ state.left block =
    if block ∈ trace.filterMap brackets.opens then body block else []
  closed : ∀ block ∈ trace.filterMap brackets.closes, state.left block = []
  apart : ∀ first second, Separated brackets full first second →
    history.Pairwise fun early late => ¬ (early.1 = second ∧ late.1 = first)

variable {full : List Event}
variable {history : List (Block × (Memory → Memory))}

theorem partOf_append (block : Block)
    (work : Block × (Memory → Memory)) :
    partOf block (history ++ [work]) =
      partOf block history ++ if work.1 = block then [work.2] else [] := by
  unfold partOf
  rw [List.filter_append, List.map_append]
  by_cases hsame : work.1 = block <;> simp [hsame]

/-- Only blocks that are open, or have been, are in the history. -/
theorem Books.opened_of_mem
    (hbooks : Books brackets body initial full trace state history)
    {work : Block × (Memory → Memory)} (hmem : work ∈ history) :
    work.1 ∈ trace.filterMap brackets.opens := by
  by_contra hclosed
  have hparts := hbooks.parts work.1
  rw [if_neg hclosed, List.append_eq_nil_iff] at hparts
  have hpart : work.2 ∈ partOf work.1 history := mem_partOf.2 hmem
  rw [hparts.1] at hpart
  simp at hpart

/-- The next operation of a block. -/
theorem Books.work
    (hbooks : Books brackets body initial full trace state history)
    (hpart : trace <+: full) {block : Block} {operation : Memory → Memory}
    {rest : List (Memory → Memory)}
    (hleft : state.left block = operation :: rest) :
    Books brackets body initial full trace
      ⟨state.control, operation state.memory,
        Function.update state.left block rest⟩
      (history ++ [(block, operation)]) where
  memory := by
    rw [List.map_append, perform_append, ← hbooks.memory]
    rfl
  parts other := by
    rw [← hbooks.parts other, partOf_append]
    by_cases hsame : block = other
    · subst hsame
      simp [hleft]
    · simp [hsame, Function.update_of_ne (Ne.symm hsame)]
  closed other hclosed := by
    by_cases hsame : other = block
    · have hnone := hbooks.closed other hclosed
      rw [hsame, hleft] at hnone
      simp at hnone
    · simpa [Function.update_of_ne hsame] using hbooks.closed other hclosed
  apart first second hseparated := by
    rw [List.pairwise_append]
    refine ⟨hbooks.apart first second hseparated, List.pairwise_singleton _ _,
      ?_⟩
    rintro early hmem late hlate ⟨rfl, rfl⟩
    obtain rfl : late = (block, operation) := by simpa using hlate
    -- the other block has opened, so this one would have closed
    have hopened := hbooks.opened_of_mem hmem
    obtain ⟨event, hevent, hopens⟩ := List.mem_filterMap.1 hopened
    obtain ⟨earlier, later, rfl⟩ := List.append_of_mem hevent
    obtain ⟨rest', hfull⟩ := hpart
    have hclosed := hseparated earlier event (later ++ rest')
      (by rw [← hfull]; simp) hopens
    have hnone := hbooks.closed block (by
      rw [List.filterMap_append, List.mem_append]
      exact .inl hclosed)
    rw [hleft] at hnone
    simp at hnone

theorem opened_of_ne {event : Event} {block : Block}
    (hne : brackets.opens event ≠ some block) :
    state.opened brackets body (some event) block = state.left block := by
  cases hopens : brackets.opens event with
  | none => simp [State.opened, hopens]
  | some other =>
      have hother : block ≠ other := by
        rintro rfl
        exact hne hopens
      simp [State.opened, hopens, Function.update_of_ne hother]

omit [DecidableEq Block] in
/-- A block has opened in front of every event that closes it. -/
theorem Bracketed.opened_of_closed {order : List Block} {event : Event}
    (hbracketed : Bracketed brackets full order)
    (hpart : trace ++ [event] <+: full) {block : Block}
    (hclosed : block ∈ (trace ++ [event]).filterMap brackets.closes) :
    block ∈ trace.filterMap brackets.opens := by
  obtain ⟨rest, rfl⟩ := hpart
  obtain ⟨closing, hmem, hcloses⟩ := List.mem_filterMap.1 hclosed
  rw [List.mem_append, List.mem_singleton] at hmem
  cases hmem with
  | inl hmem =>
      obtain ⟨earlier, later, rfl⟩ := List.append_of_mem hmem
      have hopened := hbracketed.matched earlier closing
        (later ++ [event] ++ rest) (by simp) block hcloses
      rw [List.filterMap_append, List.mem_append]
      exact .inl hopened
  | inr hlast =>
      subst hlast
      exact hbracketed.matched trace closing rest (by simp) block hcloses

/-- An event of the machine. -/
theorem Books.emit {order : List Block} {event : Event}
    (hbooks : Books brackets body initial full trace state history)
    (hbracketed : Bracketed brackets full order) (hnodup : order.Nodup)
    (hpart : trace ++ [event] <+: full)
    (hmay : state.mayEmit brackets (some event) = true) (after : Control) :
    Books brackets body initial full (trace ++ [event])
      ⟨after, state.memory, state.opened brackets body (some event)⟩
      history := by
  have honce : ∀ block, brackets.opens event = some block →
      block ∉ trace.filterMap brackets.opens := by
    intro block hopens hmem
    have hfresh : (full.filterMap brackets.opens).Nodup :=
      hbracketed.opened.nodup_iff.2 hnodup
    have hsub := hfresh.sublist (hpart.sublist.filterMap brackets.opens)
    rw [List.filterMap_append, List.nodup_append] at hsub
    exact hsub.2.2 block hmem block (by simp [hopens]) rfl
  refine ⟨hbooks.memory, fun block => ?_, fun block hclosed => ?_, hbooks.apart⟩
  · by_cases hopens : brackets.opens event = some block
    · have hbefore := hbooks.parts block
      rw [if_neg (honce block hopens), List.append_eq_nil_iff] at hbefore
      simp [State.opened, hopens, hbefore.1]
    · change partOf block history ++
        state.opened brackets body (some event) block = _
      rw [opened_of_ne hopens, hbooks.parts block]
      simp [hopens]
  · have hopened := hbracketed.opened_of_closed hpart hclosed
    change state.opened brackets body (some event) block = []
    rw [opened_of_ne fun hopens => honce block hopens hopened]
    rw [List.filterMap_append, List.mem_append] at hclosed
    cases hclosed with
    | inl hclosed => exact hbooks.closed block hclosed
    | inr hclosed =>
        have hcloses : brackets.closes event = some block := by
          simpa using hclosed
        simpa [State.mayEmit, hcloses] using hmay

/-- The books of every run. -/
theorem books_of_run {order : List Block} (hnodup : order.Nodup)
    (hbracketed : Bracketed brackets full order)
    (run : Reaches (withMemory machine brackets body) (begin start initial)
      trace state) (hpart : trace <+: full) :
    ∃ history, Books brackets body initial full trace state history := by
  have hrun := run.invariant
    (fun trace state => trace <+: full →
      ∃ history, Books brackets body initial full trace state history) ?_ ?_
  · exact hrun hpart
  · intro _
    exact ⟨[], by constructor <;> simp [begin, partOf]⟩
  · intro trace before action after event hbefore _ hstep hpart
    obtain ⟨history, hbooks⟩ :=
      hbefore ((List.prefix_append trace event.toList).trans hpart)
    cases action with
    | control step =>
        obtain ⟨⟨control, emitted⟩, -, hstep⟩ :=
          Option.bind_eq_some_iff.1 hstep
        dsimp only at hstep
        split_ifs at hstep with hmay
        obtain ⟨rfl, rfl⟩ := Prod.mk.inj (Option.some.inj hstep)
        cases emitted with
        | none =>
            rw [Option.toList_none, List.append_nil]
            exact ⟨history, hbooks.memory, hbooks.parts, hbooks.closed,
              hbooks.apart⟩
        | some event =>
            exact ⟨history, hbooks.emit hbracketed hnodup hpart hmay control⟩
    | work block =>
        simp only [withMemory] at hstep
        split at hstep
        · rename_i operation rest hleft
          obtain ⟨rfl, rfl⟩ := Prod.mk.inj (Option.some.inj hstep)
          rw [Option.toList_none, List.append_nil] at hpart ⊢
          exact ⟨_, hbooks.work hpart hleft⟩
        · simp at hstep

/-- A run that opens and closes every block, where any two blocks commute or
are separated, leaves the memory behind that the blocks make in order. -/
theorem serial_of_run {order : List Block} (hnodup : order.Nodup)
    (run : Reaches (withMemory machine brackets body) (begin start initial)
      trace state)
    (hbracketed : Bracketed brackets trace order)
    (hpairs : order.Pairwise fun first second =>
      Commutes (body second) (body first) ∨
        Separated brackets trace first second) :
    state.memory = perform (order.flatMap body) initial := by
  obtain ⟨history, hbooks⟩ :=
    books_of_run hnodup hbracketed run (List.prefix_refl trace)
  rw [hbooks.memory]
  apply perform_eq_serial hnodup
  · intro work hmem
    exact hbracketed.opened.subset (hbooks.opened_of_mem hmem)
  · intro block hblock
    have hparts := hbooks.parts block
    rw [hbooks.closed block (hbracketed.closed block hblock), List.append_nil,
      if_pos (hbracketed.opened.symm.subset hblock)] at hparts
    exact hparts
  · apply hpairs.imp
    intro first second hpair
    exact hpair.imp_right (hbooks.apart first second)

end Machines

end Citor.SharedMemory
