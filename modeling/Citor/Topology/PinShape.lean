import Citor.Scan.SlotRanges
import Citor.Topology.PinOrder

/-!
# Where the producer's CCD stands among the slots

A standalone pool pins the preferred CCD's cores, then the other cores, then
the siblings it appended.  The siblings are on record as CPUs of the first CCD,
so the producer's CCD is the first slots unless it is the first CCD, other
cores stand in between and a sibling was appended.
-/

namespace Citor.PinShape

open Citor.HostTopology
open Citor.MachineWord
open Citor.PinOrder
open Citor.SlotRanges
open Citor.TopologyGroups

/-- The CCD of a slot. -/
def slotCcd (workers : Workers) (slot : ℕ) : ℕ :=
  workers.ccdOfSlot.getD slot uint32Max

/-- The pool appended a sibling of the first CCD behind cores of another CCD,
and its producer sits on the first CCD. -/
def Overflowed (topo : Topology) (config : PoolConfig) : Prop :=
  ∃ participants,
    config = PoolConfig.standalone Affinity.perCpuSmtPair participants ∧
      topo.physicalCores.length < participants ∧
      topo.preferredCcd = 0 ∧ 2 ≤ topo.ccdGroups.length ∧
      ∃ cpu ∈ topo.physicalCores,
        topo.smtSiblingOfCpu.getD cpu uint32Max ≠ uint32Max

section Workers

variable {topo : Topology} {pins : List ℕ} {participants : ℕ}

theorem effectiveParticipants_eq (hpins : pins ≠ []) :
    effectiveParticipants topo pins participants =
      min participants pins.length := by
  simp only [effectiveParticipants, if_pos hpins]
  split <;> omega

theorem slotCcd_eq {standalone : Bool} {affinity : Affinity}
    {cpuPins : List ℕ}
    (hpins : participantPins topo standalone affinity cpuPins participants =
      pins) {slot : ℕ}
    (hslot : slot < (initWorkers topo standalone affinity cpuPins
      participants).participants) :
    slotCcd (initWorkers topo standalone affinity cpuPins participants) slot =
      ccdId topo (pins.getD slot uint32Max) := by
  simp only [initWorkers, hpins] at hslot
  simp [slotCcd, initWorkers, hpins, List.getD_eq_getElem?_getD,
    List.getElem?_range hslot]

/-- Pins that start with the pins of one CCD and hold none of it behind them
put that CCD first. -/
theorem producerFirst_append {front rest : List ℕ} {ccd : ℕ}
    (hfront : ∀ cpu ∈ front, ccdId topo cpu = ccd)
    (hrest : ∀ cpu ∈ rest, ccdId topo cpu ≠ ccd)
    (hle : participants ≤ (front ++ rest).length) :
    ProducerFirst (fun slot => ccdId topo ((front ++ rest).getD slot uint32Max))
      ccd participants := by
  refine ⟨front.length, fun slot hslot => ?_⟩
  have hbound : slot < (front ++ rest).length := by omega
  simp only [List.getD_eq_getElem _ _ hbound]
  rcases Nat.lt_or_ge slot front.length with hlt | hge
  · rw [List.getElem_append_left hlt]
    exact iff_of_true (hfront _ (List.getElem_mem _)) hlt
  · rw [List.getElem_append_right hge]
    exact iff_of_false (hrest _ (List.getElem_mem _)) (by omega)

/-- Two slots always have the producer's CCD first. -/
theorem producerFirst_two (ccdOfSlot : ℕ → ℕ) (hle : participants ≤ 2) :
    ProducerFirst ccdOfSlot (ccdOfSlot 0) participants := by
  by_cases hsame : ccdOfSlot 1 = ccdOfSlot 0
  · refine ⟨2, fun slot hslot => ?_⟩
    obtain rfl | rfl : slot = 0 ∨ slot = 1 := by omega
    · simp
    · simp [hsame]
  · refine ⟨1, fun slot hslot => ?_⟩
    obtain rfl | rfl : slot = 0 ∨ slot = 1 := by omega
    · simp
    · simp [hsame]

end Workers

section Cores

variable {host : Host} {topo : Topology}

def frontCores (topo : Topology) : List ℕ :=
  topo.physicalCores.filter fun cpu => onPreferred topo cpu

def backCores (topo : Topology) : List ℕ :=
  topo.physicalCores.filter fun cpu => ¬onPreferred topo cpu

theorem frontCores_ccd (hdetected : Detected host topo) :
    ∀ cpu ∈ frontCores topo, ccdId topo cpu = topo.preferredCcd := by
  intro cpu hcpu
  obtain ⟨hcore, hon⟩ := List.mem_filter.1 hcpu
  exact (onPreferred_iff hdetected (hdetected.cores_lt cpu hcore)).1 hon

theorem backCores_ccd (hdetected : Detected host topo) :
    ∀ cpu ∈ backCores topo, ccdId topo cpu ≠ topo.preferredCcd := by
  intro cpu hcpu heq
  obtain ⟨hcore, hoff⟩ := List.mem_filter.1 hcpu
  have hon := (onPreferred_iff hdetected (hdetected.cores_lt cpu hcore)).2 heq
  simp [hon] at hoff

theorem frontCores_ne_nil (hdetected : Detected host topo) :
    frontCores topo ≠ [] := by
  obtain ⟨cpu, hcore, hccd⟩ := exists_core hdetected hdetected.preferred_lt
  have hon := (onPreferred_iff hdetected (hdetected.cores_lt cpu hcore)).2 hccd
  exact List.ne_nil_of_mem (List.mem_filter.2 ⟨hcore, hon⟩)

theorem backCores_ne_nil_iff (hdetected : Detected host topo) :
    backCores topo ≠ [] ↔ 2 ≤ topo.ccdGroups.length := by
  have hpreferred := hdetected.preferred_lt
  constructor
  · intro hne
    obtain ⟨cpu, hcpu⟩ := List.exists_mem_of_ne_nil _ hne
    have hoff := backCores_ccd hdetected cpu hcpu
    have hlt := ccdId_lt hdetected (List.mem_of_mem_filter hcpu)
    omega
  · intro htwo
    have hother : (if topo.preferredCcd = 0 then 1 else 0) <
        topo.ccdGroups.length := by split <;> omega
    obtain ⟨cpu, hcore, hccd⟩ := exists_core hdetected hother
    have hoff : ¬onPreferred topo cpu = true := by
      rw [onPreferred_iff hdetected (hdetected.cores_lt cpu hcore), hccd]
      split <;> omega
    exact List.ne_nil_of_mem (List.mem_filter.2 ⟨hcore, by simpa using hoff⟩)

theorem cores_length (hdetected : Detected host topo) :
    (frontCores topo ++ backCores topo).length =
      topo.physicalCores.length := by
  have hperm := preferredFirst_perm hdetected topo.physicalCores
  rw [preferredFirst_eq hdetected] at hperm
  exact hperm.length_eq

/-- The appended siblings are on record as CPUs of the first CCD. -/
theorem appendSiblings_shape (hdetected : Detected host topo) :
    ∃ siblings,
      appendSiblings topo (frontCores topo ++ backCores topo) =
          frontCores topo ++ (backCores topo ++ siblings) ∧
        (∀ sib ∈ siblings, ccdId topo sib = 0) ∧
        (siblings ≠ [] ↔ ∃ cpu ∈ topo.physicalCores,
          topo.smtSiblingOfCpu.getD cpu uint32Max ≠ uint32Max) ∧
        (frontCores topo ++ (backCores topo ++ siblings)).length <
          2 ^ 32 := by
  have hperm := preferredFirst_perm hdetected topo.physicalCores
  rw [preferredFirst_eq hdetected] at hperm
  change (frontCores topo ++ backCores topo).Perm _ at hperm
  have hnodup := hperm.nodup_iff.2 hdetected.cores_nodup
  have happended : Appended topo (frontCores topo ++ backCores topo)
      (appendSiblings topo (frontCores topo ++ backCores topo)) :=
    appendSiblings_appended hnodup
  obtain ⟨⟨siblings, heq, hsiblings⟩, hpinsNodup⟩ := happended
  have hcore : ∀ sib ∈ siblings, sib < host.logicalCount ∧
      sib ∉ topo.physicalCores := by
    intro sib hsib
    obtain ⟨hrecorded, cpu, hcpu, rfl⟩ := hsiblings sib hsib
    exact hdetected.sibling_other cpu (hperm.mem_iff.1 hcpu) hrecorded
  refine ⟨siblings, by rw [heq, List.append_assoc], ?_, ?_, ?_⟩
  · intro sib hsib
    obtain ⟨hlt, hother⟩ := hcore sib hsib
    rw [ccdId_eq hdetected hlt]
    exact hdetected.ccd_other sib hother
  · constructor
    · intro hne
      obtain ⟨sib, hsib⟩ := List.exists_mem_of_ne_nil _ hne
      obtain ⟨hrecorded, cpu, hcpu, rfl⟩ := hsiblings sib hsib
      exact ⟨cpu, hperm.mem_iff.1 hcpu, hrecorded⟩
    · rintro ⟨cpu, hcpu, hrecorded⟩ hnil
      obtain ⟨-, hother⟩ := hdetected.sibling_other cpu hcpu hrecorded
      have hmem := mem_appendSiblings (hperm.mem_iff.2 hcpu)
        (hdetected.sibling_length ▸ hdetected.cores_lt cpu hcpu) hrecorded
        fun hself => hother (by rw [hself]; exact hcpu)
      rw [heq, hnil, List.append_nil] at hmem
      exact hother (hperm.mem_iff.1 hmem)
  · have hsubset : appendSiblings topo (frontCores topo ++ backCores topo) ⊆
        List.range host.logicalCount := by
      intro cpu hcpu
      rw [heq] at hcpu
      rw [List.mem_range]
      rcases List.mem_append.1 hcpu with hbase | hsib
      · exact hdetected.cores_lt cpu (hperm.mem_iff.1 hbase)
      · exact (hcore cpu hsib).1
    have hlength := (List.subperm_of_subset hpinsNodup hsubset).length_le
    rw [heq, List.append_assoc, List.length_range] at hlength
    exact hlength.trans_lt host.logical_lt

end Cores

section Standalone

variable {host : Host} {topo : Topology}

/-- A sibling is appended behind the cores exactly when the pool pairs SMT
siblings, has more participants than cores and some core has a sibling. -/
def AppendsSibling (topo : Topology) (affinity : Affinity)
    (participants : ℕ) : Prop :=
  affinity = Affinity.perCpuSmtPair ∧
    topo.physicalCores.length < participants ∧
    ∃ cpu ∈ topo.physicalCores,
      topo.smtSiblingOfCpu.getD cpu uint32Max ≠ uint32Max

/-- The pins of a standalone pool in the order of the slots. -/
structure Shape (topo : Topology) (affinity : Affinity) (participants : ℕ)
    (pins siblings : List ℕ) : Prop where
  eq : pins = frontCores topo ++ (backCores topo ++ siblings)
  sibling_ccd : ∀ sib ∈ siblings, ccdId topo sib = 0
  appends : siblings ≠ [] ↔ AppendsSibling topo affinity participants
  length_lt : pins.length < 2 ^ 32

theorem cores_length_lt (hdetected : Detected host topo) :
    topo.physicalCores.length < 2 ^ 32 := by
  have hsubset : topo.physicalCores ⊆ List.range host.logicalCount :=
    fun cpu hcpu => List.mem_range.2 (hdetected.cores_lt cpu hcpu)
  have hlength :=
    (List.subperm_of_subset hdetected.cores_nodup hsubset).length_le
  rw [List.length_range] at hlength
  exact hlength.trans_lt host.logical_lt

theorem preferredFirst_cores (hdetected : Detected host topo) :
    preferredFirst topo topo.physicalCores =
      frontCores topo ++ backCores topo :=
  preferredFirst_eq hdetected topo.physicalCores

theorem shape_cores (hdetected : Detected host topo) {affinity : Affinity}
    {participants : ℕ}
    (hnone : ¬AppendsSibling topo affinity participants) :
    Shape topo affinity participants (frontCores topo ++ backCores topo)
      [] := by
  constructor
  · rw [List.append_nil]
  · simp
  · exact iff_of_false (by simp) hnone
  · rw [cores_length hdetected]
    exact cores_length_lt hdetected

/-- Which pins a standalone pool ends up with. -/
theorem standalone_pins (hdetected : Detected host topo)
    (affinity : Affinity) (participants : ℕ) :
    (topo.physicalCores.length ≤ 1 ∧
        participantPins topo true affinity topo.physicalCores participants =
          topo.physicalCores) ∨
      (participants = 2 ∧
        participantPins topo true affinity topo.physicalCores participants ≠
          []) ∨
      ∃ siblings, Shape topo affinity participants
        (participantPins topo true affinity topo.physicalCores participants)
        siblings := by
  by_cases hone : topo.physicalCores.length ≤ 1
  · refine Or.inl ⟨hone, ?_⟩
    simp [participantPins, reserveProducerCpuFirst,
      reserveProducerCpuFirstCcdOnly, hone]
  refine Or.inr ?_
  by_cases haffinity : affinity = Affinity.perCpuSmtPair
  · have hsmt : topo.smtSiblingOfCpu ≠ [] := by
      have hpos := host.logical_pos
      rw [← hdetected.sibling_length] at hpos
      exact List.length_pos_iff.1 hpos
    have hpins : participantPins topo true affinity topo.physicalCores
        participants =
        if participants = 2 then
          siblingSecond topo (frontCores topo ++ backCores topo)
        else if topo.physicalCores.length < participants then
          appendSiblings topo (frontCores topo ++ backCores topo)
        else frontCores topo ++ backCores topo := by
      simp only [participantPins, if_pos haffinity, reserveProducerCpuFirst,
        if_neg hone, if_true, preferredFirst_cores hdetected,
        cores_length hdetected, hsmt, ne_eq, not_false_eq_true, and_true]
    rw [hpins]
    by_cases htwo : participants = 2
    · refine Or.inl ⟨htwo, ?_⟩
      rw [if_pos htwo]
      have hne : frontCores topo ++ backCores topo ≠ [] := by
        simp [frontCores_ne_nil hdetected]
      unfold siblingSecond
      simp only
      split_ifs <;> simp [hne]
    · refine Or.inr ?_
      rw [if_neg htwo]
      by_cases hmore : topo.physicalCores.length < participants
      · rw [if_pos hmore]
        obtain ⟨siblings, heq, hccd, hne, hlt⟩ :=
          appendSiblings_shape hdetected
        refine ⟨siblings, heq, hccd, ?_, heq ▸ hlt⟩
        rw [hne]
        exact ⟨fun hrecorded => ⟨haffinity, hmore, hrecorded⟩,
          fun happends => happends.2.2⟩
      · rw [if_neg hmore]
        exact ⟨[], shape_cores hdetected fun happends => hmore happends.2.1⟩
  · refine Or.inr ⟨[], ?_⟩
    have hpins : participantPins topo true affinity topo.physicalCores
        participants = frontCores topo ++ backCores topo := by
      simp only [participantPins, if_neg haffinity,
        reserveProducerCpuFirstCcdOnly, Bool.not_true, Bool.false_eq_true,
        hone, or_self, if_false, preferredFirst_cores hdetected]
    rw [hpins]
    exact shape_cores hdetected fun happends => haffinity happends.1

theorem Shape.ne_nil {affinity : Affinity} {participants : ℕ}
    {pins siblings : List ℕ} (hdetected : Detected host topo)
    (hshape : Shape topo affinity participants pins siblings) :
    pins ≠ [] := by
  rw [hshape.eq]
  simp [frontCores_ne_nil hdetected]

end Standalone

section Slots

variable {host : Host} {topo : Topology}

/-- What the scan relies on, whatever the pool. -/
structure SlotsSound (workers : Workers) : Prop where
  pos : 0 < workers.participants
  lt : workers.participants < 2 ^ 32
  length_eq : workers.ccdOfSlot.length = workers.participants

theorem length_ccdOfSlot (standalone : Bool) (affinity : Affinity)
    (cpuPins : List ℕ) (participants : ℕ) :
    (initWorkers topo standalone affinity cpuPins
        participants).ccdOfSlot.length =
      (initWorkers topo standalone affinity cpuPins
        participants).participants := by
  simp [initWorkers]

theorem participants_eq {standalone : Bool} {affinity : Affinity}
    {cpuPins pins : List ℕ} {participants : ℕ}
    (hpins : participantPins topo standalone affinity cpuPins participants =
      pins) (hne : pins ≠ []) :
    (initWorkers topo standalone affinity cpuPins
      participants).participants = min participants pins.length := by
  simp only [initWorkers, hpins]
  exact effectiveParticipants_eq hne

theorem arena_pins (ccd : ℕ) (participants : ℕ) :
    participantPins topo false Affinity.perCpu (topo.ccdGroups.getD ccd [])
      participants = topo.ccdGroups.getD ccd [] := by
  simp [participantPins, reserveProducerCpuFirstCcdOnly]

theorem arena_group (hdetected : Detected host topo) {ccd : ℕ}
    (hccd : ccd < topo.ccdGroups.length) :
    topo.ccdGroups.getD ccd [] ≠ [] ∧
      (∀ cpu ∈ topo.ccdGroups.getD ccd [], ccdId topo cpu = ccd) ∧
      (topo.ccdGroups.getD ccd []).length < 2 ^ 32 := by
  rw [List.getD_eq_getElem _ _ hccd]
  have hmem := List.getElem_mem hccd
  have hcore : ∀ cpu ∈ topo.ccdGroups[ccd], cpu ∈ topo.physicalCores :=
    fun cpu hcpu => hdetected.groups_perm.mem_iff.1
      (List.mem_flatten.2 ⟨_, hmem, hcpu⟩)
  refine ⟨hdetected.group_ne_nil _ hmem, fun cpu hcpu => ?_, ?_⟩
  · rw [ccdId_eq hdetected (hdetected.cores_lt cpu (hcore cpu hcpu))]
    exact hdetected.ccd_eq ccd _ (List.getElem?_eq_getElem hccd) cpu hcpu
  · have hnodup : (topo.ccdGroups[ccd]).Nodup :=
      (List.nodup_flatten.1
        (hdetected.groups_perm.nodup_iff.2 hdetected.cores_nodup)).1 _ hmem
    have hlength := (List.subperm_of_subset hnodup hcore).length_le
    exact hlength.trans_lt (cores_length_lt hdetected)

theorem slotsSound (hdetected : Detected host topo) {config : PoolConfig}
    (hvalid : config.Valid topo) : SlotsSound (config.workers topo) := by
  cases config with
  | standalone affinity participants =>
      change 0 < participants at hvalid
      refine ⟨?_, ?_, length_ccdOfSlot _ _ _ _⟩ <;>
        simp only [PoolConfig.workers]
      · rcases standalone_pins hdetected affinity participants with
          ⟨hone, hpins⟩ | ⟨htwo, hne⟩ | ⟨siblings, hshape⟩
        · rw [participants_eq hpins hdetected.cores_ne_nil]
          have := List.length_pos_iff.2 hdetected.cores_ne_nil
          omega
        · rw [participants_eq rfl hne]
          have := List.length_pos_iff.2 hne
          omega
        · rw [participants_eq rfl (hshape.ne_nil hdetected)]
          have := List.length_pos_iff.2 (hshape.ne_nil hdetected)
          omega
      · rcases standalone_pins hdetected affinity participants with
          ⟨hone, hpins⟩ | ⟨htwo, hne⟩ | ⟨siblings, hshape⟩
        · rw [participants_eq hpins hdetected.cores_ne_nil]
          omega
        · rw [participants_eq rfl hne]
          omega
        · rw [participants_eq rfl (hshape.ne_nil hdetected)]
          have := hshape.length_lt
          omega
  | arena ccd =>
      obtain ⟨hne, -, hlt⟩ := arena_group hdetected hvalid
      refine ⟨?_, ?_, length_ccdOfSlot _ _ _ _⟩ <;>
        simp only [PoolConfig.workers, if_neg hne]
      · rw [participants_eq (arena_pins ccd _) hne]
        have := List.length_pos_iff.2 hne
        omega
      · rw [participants_eq (arena_pins ccd _) hne]
        omega

end Slots

section Order

variable {host : Host} {topo : Topology}

theorem ProducerFirst.congr {left right : ℕ → ℕ} {ccd participants : ℕ}
    (hleft : ProducerFirst left ccd participants)
    (hsame : ∀ slot < participants, right slot = left slot) :
    ProducerFirst right ccd participants := by
  obtain ⟨count, hcount⟩ := hleft
  exact ⟨count, fun slot hslot => by rw [hsame slot hslot, hcount slot hslot]⟩

theorem two_le_cores (hdetected : Detected host topo)
    (htwo : 2 ≤ topo.ccdGroups.length) : 2 ≤ topo.physicalCores.length := by
  have hfront := List.length_pos_iff.2 (frontCores_ne_nil hdetected)
  have hback := List.length_pos_iff.2 ((backCores_ne_nil_iff hdetected).2 htwo)
  rw [← cores_length hdetected, List.length_append]
  omega

theorem Shape.head_ccd (hdetected : Detected host topo) {affinity : Affinity}
    {participants : ℕ} {pins siblings : List ℕ}
    (hshape : Shape topo affinity participants pins siblings) :
    ccdId topo (pins.getD 0 uint32Max) = topo.preferredCcd := by
  obtain ⟨head, rest, hfront⟩ :=
    List.exists_cons_of_ne_nil (frontCores_ne_nil hdetected)
  rw [hshape.eq, hfront, List.cons_append, List.getD_cons_zero]
  exact frontCores_ccd hdetected head (hfront ▸ List.mem_cons_self)

theorem Shape.producerFirst (hdetected : Detected host topo)
    {affinity : Affinity} {participants count : ℕ} {pins siblings : List ℕ}
    (hshape : Shape topo affinity participants pins siblings)
    (hnot : ¬Overflowed topo (PoolConfig.standalone affinity participants))
    (hle : count ≤ pins.length) :
    ProducerFirst (fun slot => ccdId topo (pins.getD slot uint32Max))
      topo.preferredCcd count := by
  by_cases hall : topo.preferredCcd = 0 ∧ siblings ≠ []
  · -- No core stands between the two parts of the first CCD.
    obtain ⟨hzero, hsiblings⟩ := hall
    obtain ⟨haffinity, hmore, hrecorded⟩ := hshape.appends.1 hsiblings
    have hback : backCores topo = [] := by
      by_contra hne
      exact hnot ⟨participants, by rw [haffinity], hmore, hzero,
        (backCores_ne_nil_iff hdetected).1 hne, hrecorded⟩
    have hsame : ∀ cpu ∈ pins, ccdId topo cpu = topo.preferredCcd := by
      intro cpu hcpu
      rw [hshape.eq, hback, List.nil_append] at hcpu
      rcases List.mem_append.1 hcpu with hfront | hsib
      · exact frontCores_ccd hdetected cpu hfront
      · rw [hshape.sibling_ccd cpu hsib, hzero]
    have hfirst : ProducerFirst
        (fun slot => ccdId topo ((pins ++ []).getD slot uint32Max))
        topo.preferredCcd count :=
      producerFirst_append hsame (by simp) (by rwa [List.append_nil])
    rwa [List.append_nil] at hfirst
  · have hrest : ∀ cpu ∈ backCores topo ++ siblings,
        ccdId topo cpu ≠ topo.preferredCcd := by
      intro cpu hcpu
      rcases List.mem_append.1 hcpu with hback | hsib
      · exact backCores_ccd hdetected cpu hback
      · rw [hshape.sibling_ccd cpu hsib]
        intro hzero
        exact hall ⟨hzero.symm, List.ne_nil_of_mem hsib⟩
    rw [hshape.eq] at hle ⊢
    exact producerFirst_append (frontCores_ccd hdetected) hrest hle

/-- Unless the pool overflowed, the slots of slot 0's CCD are the first
slots. -/
theorem producerFirst_of_not_overflowed (hdetected : Detected host topo)
    {config : PoolConfig} (hvalid : config.Valid topo)
    (hnot : ¬Overflowed topo config) :
    ProducerFirst (slotCcd (config.workers topo))
      (slotCcd (config.workers topo) 0)
      (config.workers topo).participants := by
  cases config with
  | standalone affinity participants =>
      simp only [PoolConfig.workers]
      rcases standalone_pins hdetected affinity participants with
        ⟨hone, hpins⟩ | ⟨htwo, hne⟩ | ⟨siblings, hshape⟩
      · refine producerFirst_two _ ?_
        rw [participants_eq hpins hdetected.cores_ne_nil]
        omega
      · refine producerFirst_two _ ?_
        rw [participants_eq rfl hne]
        omega
      · have hne := hshape.ne_nil hdetected
        have hcount : (initWorkers topo true affinity topo.physicalCores
            participants).participants = min participants _ :=
          participants_eq rfl hne
        have hpos := (slotsSound hdetected hvalid).pos
        simp only [PoolConfig.workers] at hpos
        rw [slotCcd_eq rfl hpos, hshape.head_ccd hdetected]
        refine ProducerFirst.congr (hshape.producerFirst hdetected hnot ?_)
          fun slot hslot => slotCcd_eq rfl hslot
        omega
  | arena ccd =>
      obtain ⟨hne, hgroup, -⟩ := arena_group hdetected hvalid
      have hpos := (slotsSound hdetected hvalid).pos
      simp only [PoolConfig.workers, if_neg hne] at hpos ⊢
      have hsame : ∀ slot < (initWorkers topo false Affinity.perCpu
          (topo.ccdGroups.getD ccd []) (topo.ccdGroups.getD ccd
            []).length).participants,
          slotCcd (initWorkers topo false Affinity.perCpu
            (topo.ccdGroups.getD ccd []) (topo.ccdGroups.getD ccd
              []).length) slot = ccd := by
        intro slot hslot
        rw [slotCcd_eq (arena_pins ccd _) hslot]
        rw [participants_eq (arena_pins ccd _) hne, min_self] at hslot
        rw [List.getD_eq_getElem _ _ hslot]
        exact hgroup _ (List.getElem_mem _)
      exact ⟨_, fun slot hslot =>
        iff_of_true (by rw [hsame slot hslot, hsame 0 hpos]) hslot⟩

/-- In an overflowed pool the last slot is on slot 0's CCD and some slot before
it is not. -/
theorem slots_of_overflowed (hdetected : Detected host topo)
    {config : PoolConfig} (hvalid : config.Valid topo)
    (hover : Overflowed topo config) :
    slotCcd (config.workers topo) ((config.workers topo).participants - 1) =
        slotCcd (config.workers topo) 0 ∧
      ∃ slot < (config.workers topo).participants,
        slotCcd (config.workers topo) slot ≠
          slotCcd (config.workers topo) 0 := by
  have hpos := (slotsSound hdetected hvalid).pos
  obtain ⟨participants, rfl, hmore, hzero, hgroups, hrecorded⟩ := hover
  have hcores := two_le_cores hdetected hgroups
  have hback := (backCores_ne_nil_iff hdetected).2 hgroups
  have hlength := cores_length hdetected
  simp only [PoolConfig.workers] at hpos ⊢
  obtain ⟨hone, -⟩ | ⟨htwo, -⟩ | ⟨siblings, hshape⟩ :=
    standalone_pins hdetected Affinity.perCpuSmtPair participants
  · omega
  · omega
  have hne := hshape.ne_nil hdetected
  have hcount : (initWorkers topo true Affinity.perCpuSmtPair
      topo.physicalCores participants).participants = min participants _ :=
    participants_eq rfl hne
  have hsiblings : 0 < siblings.length := List.length_pos_iff.2
    (hshape.appends.2 ⟨rfl, hmore, hrecorded⟩)
  have hbackPos := List.length_pos_iff.2 hback
  have heq := hshape.eq
  rw [slotCcd_eq rfl hpos, hshape.head_ccd hdetected]
  rw [heq, List.length_append, List.length_append] at hcount
  rw [List.length_append] at hlength
  constructor
  · rw [slotCcd_eq heq (by omega), List.getD_eq_getElem _ _ (by
        rw [List.length_append, List.length_append]
        omega), hzero, List.getElem_append_right (by omega),
      List.getElem_append_right (by omega)]
    exact hshape.sibling_ccd _ (List.getElem_mem _)
  · refine ⟨(frontCores topo).length, by omega, ?_⟩
    rw [slotCcd_eq heq (by omega), List.getD_eq_getElem _ _ (by
        rw [List.length_append, List.length_append]
        omega), List.getElem_append_right (le_refl _),
      List.getElem_append_left (by omega)]
    exact backCores_ccd hdetected _ (List.getElem_mem _)

end Order

end Citor.PinShape
