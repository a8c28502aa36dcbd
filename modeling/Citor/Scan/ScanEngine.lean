import Citor.Core.Interleaving
import Citor.Engine.DoneSlots

/-!
# The two-pass scan engines

One `parallelScan` call: every slot runs the body wrapper of
`runScanParallel`.  The flat engine lets slot 0 reduce all partials; the
hierarchical engine lets the leader of each cluster reduce its slots, slot 0
combine the cluster totals and the leaders redistribute.  A program counter
stands in front of the next atomic operation, user callback or iteration of a
reduce loop.
-/

namespace Citor.Scan

open Citor.Interleaving
open Citor.DoneSlots

/-- The cluster layout of the hierarchical engine: non-empty intervals of
consecutive slots in cluster-id order. -/
structure Layout (participants : ℕ) where
  numClusters : ℕ
  clusterFirstSlot : ℕ → ℕ
  first_zero : clusterFirstSlot 0 = 0
  first_lt : ∀ cluster < numClusters,
    clusterFirstSlot cluster < clusterFirstSlot (cluster + 1)
  first_end : clusterFirstSlot numClusters = participants
  clusterIdOfSlot : ℕ → ℕ
  id_lt : ∀ slot < participants, clusterIdOfSlot slot < numClusters
  first_le : ∀ slot < participants,
    clusterFirstSlot (clusterIdOfSlot slot) ≤ slot
  lt_next : ∀ slot < participants,
    slot < clusterFirstSlot (clusterIdOfSlot slot + 1)

/-- Where user code may throw: a body's first or second pass, or a call of
`prefix` in one of the reduce loops. -/
inductive Site
  | pass1 (slot : ℕ)
  | pass2 (slot : ℕ)
  /-- The loop over the slots of a group, at `slot`. -/
  | reduce (slot : ℕ)
  /-- The loop over the clusters. -/
  | cross (cluster : ℕ)
  /-- The redistribution, at `slot`. -/
  | combine (slot : ℕ)
  deriving DecidableEq, Repr

/-- One call.  `engine` is `none` for the flat engine. -/
structure Call (T : Type*) where
  participants : ℕ
  two_le : 2 ≤ participants
  engine : Option (Layout participants)
  epochs : ChainEpochs
  slotRange : ℕ → ℕ × ℕ
  identity : T
  body : ℕ → ℕ → ℕ → T → T
  prefixFn : T → T → T
  throws : Site → Bool

section Groups

variable {T : Type*} (call : Call T)

/-- Whether the call takes the hierarchical path. -/
def Call.hierarchical : Bool :=
  call.engine.isSome

def Call.numClusters : ℕ :=
  match call.engine with
  | none => 1
  | some layout => layout.numClusters

/-- The first slot of a cluster; the flat engine has the one cluster. -/
def Call.clusterFirst (cluster : ℕ) : ℕ :=
  match call.engine with
  | none => if cluster = 0 then 0 else call.participants
  | some layout => layout.clusterFirstSlot cluster

def Call.cluster (slot : ℕ) : ℕ :=
  match call.engine with
  | none => 0
  | some layout => layout.clusterIdOfSlot slot

/-- The slot that reduces the partials of a slot's group. -/
def Call.leader (slot : ℕ) : ℕ :=
  call.clusterFirst (call.cluster slot)

/-- One past the last slot of a slot's group. -/
def Call.groupEnd (slot : ℕ) : ℕ :=
  call.clusterFirst (call.cluster slot + 1)

/-- What the first pass of a slot returns. -/
def Call.partialOf (slot : ℕ) : T :=
  call.body slot (call.slotRange slot).1 (call.slotRange slot).2 call.identity

end Groups

/-- Where a slot stands in the body wrapper. -/
inductive Pc (T : Type*)
  | pass1Enter
  | pass1Body
  | stampPass1
  /-- Waiting for the first pass of a member of the group. -/
  | awaitPass1 (member : ℕ)
  /-- Flat, slot 0: about to load `firstException`. -/
  | loadFailed
  | reduce (member : ℕ) (acc : T)
  | publishTotal (localAcc : T)
  | awaitCluster (cluster : ℕ)
  | crossReduce (cluster : ℕ) (globalAcc : T)
  | publishPrefixes (acc : T)
  | awaitPrefixes
  | combine (member : ℕ) (cPrefix : T)
  | stampCluster
  | awaitCombined
  /-- In front of the second pass, about to load `scanCancelled`. -/
  | loadCancelled
  | pollToken
  | repollToken
  | storeCancelled
  | pass2Body
  | stampPass2
  /-- `recordFailure`, then on to `next`. -/
  | capture (site : Site) (next : Pc T)
  | arm (next : Pc T)
  /-- The exit of a slot whose first pass threw. -/
  | stampFailed
  | publishFailed
  | awaitLeft (slot : ℕ)
  | left

inductive Event (T : Type*)
  | pass1Start (slot : ℕ)
  | pass1End (slot : ℕ)
  | pass2Start (slot : ℕ) (initial : T)
  | pass2End (slot : ℕ)
  | threw (site : Site)
  | captured (site : Site)

structure State (T : Type*) where
  pc : ℕ → Pc T
  done : ℕ → ℕ
  partials : ℕ → T
  clusterStamp : ℕ → ℕ
  clusterTotals : ℕ → T
  clusterPrefixes : ℕ → T
  prefixesPublished : Bool
  scanCancelled : Bool
  stopRequested : Bool
  firstException : Option Site
  /-- Slot 0's accumulator in the flat engine. -/
  acc : T
  inclusiveTotal : T
  outcome : Option (Except Site T)

inductive Action
  | slot (slot : ℕ)
  /-- The dispatch join and `rethrowIfCaptured`. -/
  | join
  | requestStop
  deriving DecidableEq, Repr

section Step

variable {T : Type*} (call : Call T)

def State.setPc (state : State T) (slot : ℕ) (pc : Pc T) : State T :=
  { state with pc := Function.update state.pc slot pc }

def State.stamp (state : State T) (slot epoch : ℕ) : State T :=
  { state with done := Function.update state.done slot epoch }

def State.setPartial (state : State T) (slot : ℕ) (value : T) : State T :=
  { state with partials := Function.update state.partials slot value }

def State.stampClusterOf (state : State T) (cluster stamp : ℕ) : State T :=
  { state with
    clusterStamp := Function.update state.clusterStamp cluster stamp }

/-- The member after `member` that a leader waits for; it skips itself. -/
def nextMember (leader member : ℕ) : ℕ :=
  if member = leader then member + 1 else member

/-- After the Pass-1 stamp. -/
def afterPass1 (slot : ℕ) : Pc T :=
  if call.leader slot = slot then .awaitPass1 (nextMember slot slot)
  else if call.hierarchical then .awaitCombined
  else .awaitPrefixes

/-- The members have finished their first pass. -/
def afterAwait (slot : ℕ) : Pc T :=
  if call.hierarchical then .reduce slot call.identity else .loadFailed

/-- The loop over the members is through. -/
def afterReduce (acc : T) : Pc T :=
  if call.hierarchical then .publishTotal acc else .publishPrefixes acc

/-- The next iteration of the loop over the members. -/
def nextReduce (slot member : ℕ) (acc : T) : Pc T :=
  if member + 1 < call.groupEnd slot then .reduce (member + 1) acc
  else afterReduce call acc

/-- Slot 0 has published its cluster's total. -/
def nextCluster (cluster : ℕ) : Pc T :=
  if cluster < call.numClusters then .awaitCluster cluster
  else .crossReduce 0 call.identity

def nextCross (cluster : ℕ) (globalAcc : T) : Pc T :=
  if cluster + 1 < call.numClusters then .crossReduce (cluster + 1) globalAcc
  else .publishPrefixes globalAcc

def nextCombine (slot member : ℕ) (cPrefix : T) : Pc T :=
  if member + 1 < call.groupEnd slot then .combine (member + 1) cPrefix
  else .stampCluster

/-- The prefixes are published: leaders redistribute, the flat engine goes on
to the second pass. -/
def afterPublished (state : State T) (slot : ℕ) : Pc T :=
  if call.hierarchical then
    .combine slot (state.clusterPrefixes (call.cluster slot))
  else .loadCancelled

/-- One step of `slot`.  A wait whose condition does not hold yet only re-reads
its stamp; that is no step. -/
def stepSlot (state : State T) (slot : ℕ) :
    Option (State T × Option (Event T)) :=
  let base := call.epochs.epochBase
  match state.pc slot with
  | .pass1Enter => some (state.setPc slot .pass1Body, some (.pass1Start slot))
  | .pass1Body =>
      if call.throws (.pass1 slot) then
        some (state.setPc slot (.capture (.pass1 slot) .stampFailed),
          some (.threw (.pass1 slot)))
      else
        some ((state.setPartial slot (call.partialOf slot)).setPc slot
          .stampPass1, some (.pass1End slot))
  | .stampPass1 =>
      some ((state.stamp slot (base + 1)).setPc slot (afterPass1 call slot),
        none)
  | .awaitPass1 member =>
      if member < call.groupEnd slot then
        if state.done member < base + 1 then none
        else some (state.setPc slot
          (.awaitPass1 (nextMember slot (member + 1))), none)
      else some (state.setPc slot (afterAwait call slot), none)
  | .loadFailed =>
      if state.firstException.isSome then
        some (state.setPc slot (.publishPrefixes call.identity), none)
      else some (state.setPc slot (.reduce slot call.identity), none)
  | .reduce member acc =>
      let t := state.partials member
      if call.throws (.reduce member) then
        some ((state.setPartial member acc).setPc slot
          (.capture (.reduce member) (afterReduce call acc)),
          some (.threw (.reduce member)))
      else
        some ((state.setPartial member acc).setPc slot
          (nextReduce call slot member (call.prefixFn acc t)), none)
  | .publishTotal localAcc =>
      some (({ state with
          clusterTotals := Function.update state.clusterTotals
            (call.cluster slot) localAcc }.stampClusterOf
          (call.cluster slot) 1).setPc slot
        (if slot = 0 then nextCluster call 1 else .awaitPrefixes), none)
  | .awaitCluster cluster =>
      if state.clusterStamp cluster < 1 then none
      else some (state.setPc slot (nextCluster call (cluster + 1)), none)
  | .crossReduce cluster globalAcc =>
      let stored := { state with
        clusterPrefixes :=
          Function.update state.clusterPrefixes cluster globalAcc }
      if call.throws (.cross cluster) then
        some (stored.setPc slot
          (.capture (.cross cluster) (.publishPrefixes globalAcc)),
          some (.threw (.cross cluster)))
      else
        some (stored.setPc slot (nextCross call cluster
          (call.prefixFn globalAcc (state.clusterTotals cluster))), none)
  | .publishPrefixes acc =>
      let published := { state with
        acc := acc
        inclusiveTotal := if call.hierarchical then acc
          else state.inclusiveTotal
        prefixesPublished := true }
      some (published.setPc slot (afterPublished call state slot), none)
  | .awaitPrefixes =>
      if state.prefixesPublished then
        some (state.setPc slot (afterPublished call state slot), none)
      else none
  | .combine member cPrefix =>
      if call.throws (.combine member) then
        some (state.setPc slot (.capture (.combine member) .stampCluster),
          some (.threw (.combine member)))
      else
        some ((state.setPartial member
          (call.prefixFn cPrefix (state.partials member))).setPc slot
          (nextCombine call slot member cPrefix), none)
  | .stampCluster =>
      some ((state.stampClusterOf (call.cluster slot) 2).setPc slot
        .loadCancelled, none)
  | .awaitCombined =>
      if state.clusterStamp (call.cluster slot) < 2 then none
      else some (state.setPc slot .loadCancelled, none)
  | .loadCancelled =>
      if state.scanCancelled then some (state.setPc slot .repollToken, none)
      else some (state.setPc slot .pollToken, none)
  | .pollToken =>
      if state.stopRequested then some (state.setPc slot .repollToken, none)
      else some (state.setPc slot .pass2Body,
        some (.pass2Start slot (state.partials slot)))
  | .repollToken =>
      if state.stopRequested then
        some (state.setPc slot .storeCancelled, none)
      else some (state.setPc slot .stampPass2, none)
  | .storeCancelled =>
      some ({ state with scanCancelled := true }.setPc slot .stampPass2, none)
  | .pass2Body =>
      if call.throws (.pass2 slot) then
        some (state.setPc slot (.capture (.pass2 slot) .stampPass2),
          some (.threw (.pass2 slot)))
      else some (state.setPc slot .stampPass2, some (.pass2End slot))
  | .stampPass2 =>
      let stamped := state.stamp slot (base + 2)
      some ({ stamped with
        inclusiveTotal :=
          if slot = 0 ∧ call.hierarchical = false then state.acc
          else state.inclusiveTotal }.setPc slot .left, none)
  | .capture site next =>
      some ({ state with
        firstException :=
          captureFirstException state.firstException site }.setPc slot
        (.arm next), some (.captured site))
  | .arm next =>
      some ({ state with scanCancelled := true }.setPc slot next, none)
  | .stampFailed =>
      some ((state.stamp slot (base + 2)).setPc slot
        (if slot = 0 then .publishFailed else .left), none)
  | .publishFailed =>
      some ({ state with prefixesPublished := true }.setPc slot
        (.awaitLeft 1), none)
  | .awaitLeft other =>
      if other < call.participants then
        if state.done other < base + 2 then none
        else some (state.setPc slot (.awaitLeft (other + 1)), none)
      else some (state.setPc slot .left, none)
  | .left => none

def Pc.hasLeft : Pc T → Bool
  | .left => true
  | _ => false

def State.allLeft (state : State T) : Bool :=
  (List.range call.participants).all fun slot => (state.pc slot).hasLeft

/-- What the call ends with. -/
def scanOutcome (state : State T) : Except Site T :=
  match state.firstException with
  | none => .ok state.inclusiveTotal
  | some site => .error site

/-- The scan call as a machine. -/
def scan : Machine (State T) Action (Event T) where
  step state
    | .slot slot =>
        if slot < call.participants then stepSlot call state slot else none
    | .join =>
        if state.outcome.isNone ∧ state.allLeft call then
          some ({ state with outcome := some (scanOutcome state) }, none)
        else none
    | .requestStop => some ({ state with stopRequested := true }, none)

/-- The state the producer publishes.  Whatever the scratch holds, nobody reads
it before it is written. -/
def start (scratch : ℕ → T) (initialTotal : T) : State T where
  pc := fun _ => .pass1Enter
  done := call.epochs.done
  partials := scratch
  clusterStamp := fun _ => 0
  clusterTotals := fun _ => call.identity
  clusterPrefixes := fun _ => call.identity
  prefixesPublished := false
  scanCancelled := false
  stopRequested := false
  firstException := none
  acc := call.identity
  inclusiveTotal := initialTotal
  outcome := none

end Step

end Citor.Scan
