import Citor.Topology.TopologyGroups

/-!
# Pin order and slots

The CPUs of the slots: the preferred CCD's cores come first, and a pool with
SMT pairs puts the producer's sibling second or appends siblings when it has
more participants than cores.  `initWorkers` reads the slot count and the CCD
of every slot off the pins.
-/

namespace Citor.PinOrder

open Citor.HostTopology
open Citor.MachineWord
open Citor.TopologyGroups

inductive Affinity
  | none
  | perCpu
  | perCpuSmtPair
  | perCluster
  deriving DecidableEq, Repr

/-- The topology records a CPU on the preferred CCD. -/
def onPreferred (topo : Topology) (cpu : ℕ) : Bool :=
  cpu < topo.ccdOfCpu.length &&
    topo.ccdOfCpu.getD cpu 0 = topo.preferredCcd

/-- The preferred CCD's pins first, each part in its own order. -/
def preferredFirst (topo : Topology) (pins : List ℕ) : List ℕ :=
  if topo.preferredCcd < topo.ccdGroups.length then
    let reordered := pins.filter (fun cpu => onPreferred topo cpu) ++
      pins.filter (fun cpu => ¬onPreferred topo cpu)
    if reordered.length = pins.length then reordered else pins
  else pins

def reserveProducerCpuFirstCcdOnly (topo : Topology) (standalone : Bool)
    (cpuPins : List ℕ) : List ℕ :=
  if !standalone ∨ cpuPins.length ≤ 1 then cpuPins
  else preferredFirst topo cpuPins

/-- Exception A: the producer's SMT sibling becomes the second pin. -/
def siblingSecond (topo : Topology) (pins : List ℕ) : List ℕ :=
  let prodCpu := pins.headD uint32Max
  if prodCpu < topo.smtSiblingOfCpu.length then
    let sib := topo.smtSiblingOfCpu.getD prodCpu uint32Max
    if sib ≠ uint32Max ∧ sib ≠ prodCpu then
      if sib ∉ pins then prodCpu :: sib :: pins.tail
      else (pins.set 1 sib).set (pins.idxOf sib) (pins.getD 1 0)
    else pins
  else pins

/-- One pin of one pass of exception B: append the pin's sibling unless it is
pinned already or belongs to the other pass. -/
def appendSibling (topo : Topology) (preferredPass : Bool) (pins : List ℕ)
    (cpu : ℕ) : List ℕ :=
  if topo.smtSiblingOfCpu.length ≤ cpu then pins
  else
    let sib := topo.smtSiblingOfCpu.getD cpu uint32Max
    let preferredCcdMatch := onPreferred topo sib &&
      topo.preferredCcd < topo.ccdGroups.length
    if sib = uint32Max ∨ sib = cpu then pins
    else if preferredCcdMatch ≠ preferredPass then pins
    else if sib ∈ pins then pins
    else pins ++ [sib]

/-- Exception B: append SMT siblings, those of the preferred CCD first. -/
def appendSiblings (topo : Topology) (pins : List ℕ) : List ℕ :=
  pins.foldl (appendSibling topo false)
    (pins.foldl (appendSibling topo true) pins)

def reserveProducerCpuFirst (topo : Topology) (standalone : Bool)
    (cpuPins : List ℕ) (participants : ℕ) : List ℕ :=
  if cpuPins.length ≤ 1 then cpuPins
  else
    let pins := if standalone then preferredFirst topo cpuPins else cpuPins
    if participants = 2 ∧ topo.smtSiblingOfCpu ≠ [] then
      siblingSecond topo pins
    else if pins.length < participants ∧ topo.smtSiblingOfCpu ≠ [] then
      appendSiblings topo pins
    else pins

/-- The slot fields `initWorkers` fills. -/
structure Workers where
  participants : ℕ
  cpuId : ℕ → ℕ
  ccdOfSlot : List ℕ

def participantPins (topo : Topology) (standalone : Bool)
    (affinity : Affinity) (cpuPins : List ℕ) (participants : ℕ) : List ℕ :=
  if affinity = Affinity.perCpuSmtPair then
    reserveProducerCpuFirst topo standalone cpuPins participants
  else reserveProducerCpuFirstCcdOnly topo standalone cpuPins

def effectiveParticipants (topo : Topology) (pins : List ℕ)
    (participants : ℕ) : ℕ :=
  let maxByTopology :=
    if pins ≠ [] then pins.length
    else if 0 < topo.physicalCount then topo.physicalCount
    else participants
  if participants ≤ maxByTopology then participants else maxByTopology

/-- The CCD a worker records for its CPU. -/
def ccdId (topo : Topology) (cpu : ℕ) : ℕ :=
  if cpu ≠ uint32Max ∧ cpu < topo.ccdOfCpu.length then
    topo.ccdOfCpu.getD cpu 0
  else uint32Max

def initWorkers (topo : Topology) (standalone : Bool) (affinity : Affinity)
    (cpuPins : List ℕ) (participants : ℕ) : Workers :=
  let pins := participantPins topo standalone affinity cpuPins participants
  let effective := effectiveParticipants topo pins participants
  let cpuId := fun slot => pins.getD slot uint32Max
  { participants := effective
    cpuId
    ccdOfSlot := (List.range effective).map fun slot =>
      ccdId topo (cpuId slot) }

/-- How a pool is made: by its public constructor, or as a `PoolGroup` arena on
one CCD. -/
inductive PoolConfig
  | standalone (affinity : Affinity) (participants : ℕ)
  | arena (ccd : ℕ)

def PoolConfig.Valid (topo : Topology) : PoolConfig → Prop
  | .standalone _ participants => 0 < participants
  | .arena ccd => ccd < topo.ccdGroups.length

def PoolConfig.workers (topo : Topology) : PoolConfig → Workers
  | .standalone affinity participants =>
    initWorkers topo true affinity topo.physicalCores participants
  | .arena ccd =>
    let pins := topo.ccdGroups.getD ccd []
    initWorkers topo false Affinity.perCpu pins
      (if pins = [] then 1 else pins.length)

section Overflow

variable {topo : Topology}

/-- `pins` is `base` and, behind it, recorded siblings of pins of `base`. -/
structure Appended (topo : Topology) (base pins : List ℕ) : Prop where
  extra : ∃ siblings, pins = base ++ siblings ∧
    ∀ sib ∈ siblings, sib ≠ uint32Max ∧
      ∃ cpu ∈ base, topo.smtSiblingOfCpu.getD cpu uint32Max = sib
  nodup : pins.Nodup

theorem Appended.start {base : List ℕ} (hnodup : base.Nodup) :
    Appended topo base base :=
  ⟨⟨[], by simp⟩, hnodup⟩

theorem Appended.step {base pins : List ℕ} {cpu : ℕ}
    (happended : Appended topo base pins) (hcpu : cpu ∈ base)
    (preferredPass : Bool) :
    Appended topo base (appendSibling topo preferredPass pins cpu) := by
  obtain ⟨⟨siblings, rfl, hsiblings⟩, hnodup⟩ := happended
  unfold appendSibling
  split
  · exact ⟨⟨siblings, rfl, hsiblings⟩, hnodup⟩
  simp only
  split
  · exact ⟨⟨siblings, rfl, hsiblings⟩, hnodup⟩
  rename_i hrecorded
  split
  · exact ⟨⟨siblings, rfl, hsiblings⟩, hnodup⟩
  split
  · exact ⟨⟨siblings, rfl, hsiblings⟩, hnodup⟩
  rename_i hfresh
  refine ⟨⟨siblings ++ [topo.smtSiblingOfCpu.getD cpu uint32Max],
    List.append_assoc _ _ _, ?_⟩, ?_⟩
  · intro sib hsib
    rcases List.mem_append.1 hsib with hold | hnew
    · exact hsiblings sib hold
    · obtain rfl := List.mem_singleton.1 hnew
      exact ⟨fun hnone => hrecorded (Or.inl hnone), cpu, hcpu, rfl⟩
  · refine List.nodup_append.2 ⟨hnodup, List.nodup_singleton _, ?_⟩
    intro pin hpin sib hsib heq
    obtain rfl := List.mem_singleton.1 hsib
    exact hfresh (heq ▸ hpin)

theorem Appended.run {base pins : List ℕ} (happended : Appended topo base pins)
    (preferredPass : Bool) (cpus : List ℕ) (hcpus : ∀ cpu ∈ cpus, cpu ∈ base) :
    Appended topo base
      (cpus.foldl (appendSibling topo preferredPass) pins) := by
  induction cpus generalizing pins with
  | nil => exact happended
  | cons cpu cpus ih =>
      exact ih (happended.step (hcpus cpu (by simp)) preferredPass)
        fun other hother => hcpus other (by simp [hother])

theorem appendSiblings_appended {base : List ℕ} (hnodup : base.Nodup) :
    Appended topo base (appendSiblings topo base) :=
  ((Appended.start hnodup).run true base fun _ hcpu => hcpu).run false base
    fun _ hcpu => hcpu

theorem subset_appendSibling (preferredPass : Bool) (pins : List ℕ)
    (cpu : ℕ) : pins ⊆ appendSibling topo preferredPass pins cpu := by
  unfold appendSibling
  simp only
  split_ifs <;> simp

theorem subset_pass (preferredPass : Bool) (cpus pins : List ℕ) :
    pins ⊆ cpus.foldl (appendSibling topo preferredPass) pins := by
  induction cpus generalizing pins with
  | nil => exact List.Subset.refl _
  | cons cpu cpus ih =>
      exact List.Subset.trans (subset_appendSibling preferredPass pins cpu)
        (ih _)

/-- A pin's sibling is pinned once the sibling's pass has come to the pin. -/
theorem mem_pass {preferredPass : Bool} {cpu : ℕ}
    (hlt : cpu < topo.smtSiblingOfCpu.length)
    (hrecorded : topo.smtSiblingOfCpu.getD cpu uint32Max ≠ uint32Max)
    (hne : topo.smtSiblingOfCpu.getD cpu uint32Max ≠ cpu)
    (hpass : (onPreferred topo (topo.smtSiblingOfCpu.getD cpu uint32Max) &&
      topo.preferredCcd < topo.ccdGroups.length) = preferredPass)
    {cpus : List ℕ} (hcpu : cpu ∈ cpus) (pins : List ℕ) :
    topo.smtSiblingOfCpu.getD cpu uint32Max ∈
      cpus.foldl (appendSibling topo preferredPass) pins := by
  induction cpus generalizing pins with
  | nil => cases hcpu
  | cons head cpus ih =>
      rcases List.mem_cons.1 hcpu with rfl | htail
      · rw [List.foldl_cons]
        refine subset_pass _ cpus _ ?_
        unfold appendSibling
        simp only [if_neg (Nat.not_le_of_lt hlt),
          if_neg (not_or.2 ⟨hrecorded, hne⟩), if_neg (not_not_intro hpass)]
        split
        · assumption
        · simp
      · exact ih htail _

theorem mem_appendSiblings {cpu : ℕ} {pins : List ℕ} (hcpu : cpu ∈ pins)
    (hlt : cpu < topo.smtSiblingOfCpu.length)
    (hrecorded : topo.smtSiblingOfCpu.getD cpu uint32Max ≠ uint32Max)
    (hne : topo.smtSiblingOfCpu.getD cpu uint32Max ≠ cpu) :
    topo.smtSiblingOfCpu.getD cpu uint32Max ∈ appendSiblings topo pins := by
  unfold appendSiblings
  cases hpass : (onPreferred topo (topo.smtSiblingOfCpu.getD cpu uint32Max) &&
      topo.preferredCcd < topo.ccdGroups.length) with
  | true =>
      exact subset_pass _ _ _ (mem_pass hlt hrecorded hne hpass hcpu _)
  | false => exact mem_pass hlt hrecorded hne hpass hcpu _

end Overflow

section Preferred

variable {host : Host} {topo : Topology}

theorem preferredFirst_eq (hdetected : Detected host topo) (pins : List ℕ) :
    preferredFirst topo pins =
      pins.filter (fun cpu => onPreferred topo cpu) ++
        pins.filter (fun cpu => ¬onPreferred topo cpu) := by
  have hperm := List.filter_append_perm (fun cpu => onPreferred topo cpu) pins
  have hlength : (pins.filter (fun cpu => onPreferred topo cpu) ++
      pins.filter (fun cpu => ¬onPreferred topo cpu)).length =
        pins.length := by
    simpa using hperm.length_eq
  simp only [preferredFirst, if_pos hdetected.preferred_lt, if_pos hlength]

theorem preferredFirst_perm (hdetected : Detected host topo)
    (pins : List ℕ) : (preferredFirst topo pins).Perm pins := by
  rw [preferredFirst_eq hdetected]
  simpa using List.filter_append_perm (fun cpu => onPreferred topo cpu) pins

theorem ccdId_eq (hdetected : Detected host topo) {cpu : ℕ}
    (hcpu : cpu < host.logicalCount) :
    ccdId topo cpu = topo.ccdOfCpu.getD cpu 0 := by
  have hlt := host.logical_lt
  rw [ccdId, hdetected.ccd_length, if_pos]
  unfold uint32Max
  omega

theorem onPreferred_iff (hdetected : Detected host topo) {cpu : ℕ}
    (hcpu : cpu < host.logicalCount) :
    onPreferred topo cpu = true ↔ ccdId topo cpu = topo.preferredCcd := by
  rw [ccdId_eq hdetected hcpu, onPreferred, hdetected.ccd_length]
  simp [hcpu]

/-- Every group has a core, and the core is on record under its index. -/
theorem exists_core (hdetected : Detected host topo) {k : ℕ}
    (hk : k < topo.ccdGroups.length) :
    ∃ cpu ∈ topo.physicalCores, ccdId topo cpu = k := by
  have hgroup := List.getElem?_eq_getElem hk
  obtain ⟨cpu, hcpu⟩ := List.exists_mem_of_ne_nil _
    (hdetected.group_ne_nil _ (List.getElem_mem hk))
  have hcore : cpu ∈ topo.physicalCores := hdetected.groups_perm.mem_iff.1
    (List.mem_flatten.2 ⟨_, List.getElem_mem hk, hcpu⟩)
  refine ⟨cpu, hcore, ?_⟩
  rw [ccdId_eq hdetected (hdetected.cores_lt cpu hcore)]
  exact hdetected.ccd_eq k _ hgroup cpu hcpu

theorem ccdId_lt (hdetected : Detected host topo) {cpu : ℕ}
    (hcpu : cpu ∈ topo.physicalCores) :
    ccdId topo cpu < topo.ccdGroups.length := by
  obtain ⟨group, hgroup, hmem⟩ :=
    List.mem_flatten.1 (hdetected.groups_perm.mem_iff.2 hcpu)
  obtain ⟨k, hk, rfl⟩ := List.mem_iff_getElem.1 hgroup
  rw [ccdId_eq hdetected (hdetected.cores_lt cpu hcpu),
    hdetected.ccd_eq k _ (List.getElem?_eq_getElem hk) cpu hmem]
  exact hk

end Preferred

end Citor.PinOrder
