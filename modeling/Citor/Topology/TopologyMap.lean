import Citor.Topology.TopologyGroups

/-!
# The CCD of every logical CPU

The detected cores and groups are what they should be on every host.  The map
from logical CPUs to CCDs is filled for the picked CPUs only: it is right
exactly if every sibling that was not picked belongs to the first CCD.
-/

namespace Citor.TopologyMap

open Citor.HostTopology
open Citor.MachineWord
open Citor.TopologyGroups

/-- What a topology should say about a host. -/
structure Grouped (host : Host) (topo : Topology) : Prop where
  cores_nodup : topo.physicalCores.Nodup
  cores_allowed : ∀ core ∈ topo.physicalCores, core ∈ allowedCpus host
  /-- One of the CPUs of every core with an allowed CPU is picked. -/
  one_per_core : ∀ cpu ∈ allowedCpus host, ∃! core,
    core ∈ topo.physicalCores ∧ core ∈ host.threadSiblings.block cpu
  groups_perm : topo.ccdGroups.flatten.Perm topo.physicalCores
  groups_ne_nil : ∀ group ∈ topo.ccdGroups, group ≠ []
  groups_share : ∀ group ∈ topo.ccdGroups, ∀ core ∈ group,
    ∀ other ∈ topo.physicalCores, other ∈ group ↔
      other ∈ host.sharedL3.block core
  /-- The map sends an allowed CPU to the group of its core. -/
  ccd_of_cpu : ∀ cpu ∈ allowedCpus host, ∀ core ∈ topo.physicalCores,
    core ∈ host.threadSiblings.block cpu →
      ∃ k group, topo.ccdOfCpu[cpu]? = some k ∧
        topo.ccdGroups[k]? = some group ∧ core ∈ group

/-- A CPU with an allowed sibling in front of it is not picked. -/
def Sibling (host : Host) (cpu : ℕ) : Prop :=
  ∃ sib ∈ allowedCpus host, sib ∈ host.threadSiblings.block cpu ∧ sib < cpu

/-- The first allowed CPU. -/
def firstAllowed (host : Host) : ℕ :=
  (allowedCpus host).headD 0

/-- Every allowed CPU that is not picked shares the L3 of the first one. -/
def SiblingsOnFirstCcd (host : Host) : Prop :=
  ∀ cpu ∈ allowedCpus host, Sibling host cpu →
    cpu ∈ host.sharedL3.block (firstAllowed host)

section Cores

variable {host : Host}

theorem allowedCpus_sorted (host : Host) :
    (allowedCpus host).Pairwise (· < ·) := by
  unfold allowedCpus
  simp only
  split
  · exact List.pairwise_lt_range
  · exact List.pairwise_lt_range.filter _

/-- A picked CPU comes before every CPU of its core that was looked at. -/
def PicksLeast (host : Host) (pass : CorePass) (done : List ℕ) : Prop :=
  ∀ core ∈ pass.physicalCores, ∀ cpu ∈ done,
    cpu ∈ host.threadSiblings.block core → core ≤ cpu

theorem PicksLeast.step {pass : CorePass} {done : List ℕ} {cpu : ℕ}
    (hleast : PicksLeast host pass done) (hinv : CoreInv host pass done)
    (hlt : ∀ other ∈ done, other < host.logicalCount)
    (hlater : ∀ other ∈ done, other < cpu) :
    PicksLeast host (pickCore host pass cpu) (done ++ [cpu]) := by
  unfold pickCore
  split
  · intro core hcore other hother hblock
    rcases List.mem_append.1 hother with hold | hnew
    · exact hleast core hcore other hold hblock
    · obtain rfl := List.mem_singleton.1 hnew
      exact (hlater core (hinv.mem_done core hcore)).le
  next hskip =>
    push Not at hskip
    obtain ⟨hcpu, hfresh⟩ := hskip
    intro core hcore other hother hblock
    rcases List.mem_append.1 hcore with hold | hnew
    · rcases List.mem_append.1 hother with hseen | hlast
      · exact hleast core hold other hseen hblock
      · obtain rfl := List.mem_singleton.1 hlast
        exact (hlater core (hinv.mem_done core hold)).le
    · obtain rfl := List.mem_singleton.1 hnew
      rcases List.mem_append.1 hother with hseen | hlast
      -- The core that covers `other` would have consumed the new CPU.
      · exfalso
        have hotherLt := hlt other hseen
        obtain ⟨old, hold, hmem⟩ := (hinv.consumed_iff other hotherLt).1
          (hinv.covered other hseen hotherLt)
        have holdLt := hinv.lt old hold
        have hsame := host.threadSiblings.same old holdLt other hmem
        have hback := IdPartition.mem_comm _ hcpu hblock
        rw [hsame] at hback
        exact hfresh ((hinv.consumed_iff core hcpu).2 ⟨old, hold, hback⟩)
      · exact (List.mem_singleton.1 hlast).ge

theorem PicksLeast.run {pass : CorePass} {done : List ℕ}
    (hleast : PicksLeast host pass done) (hinv : CoreInv host pass done)
    (cpus : List ℕ) (hlt : ∀ cpu ∈ done ++ cpus, cpu < host.logicalCount)
    (hsorted : (done ++ cpus).Pairwise (· < ·)) :
    PicksLeast host (cpus.foldl (pickCore host) pass) (done ++ cpus) := by
  induction cpus generalizing pass done with
  | nil => simpa using hleast
  | cons cpu cpus ih =>
      have happend : done ++ cpu :: cpus = (done ++ [cpu]) ++ cpus := by simp
      have hlater : ∀ other ∈ done, other < cpu := fun other hother =>
        (List.pairwise_append.1 hsorted).2.2 other hother cpu
          List.mem_cons_self
      rw [happend] at hlt hsorted ⊢
      exact ih (hleast.step hinv
        (fun other hother => hlt other (by simp [hother])) hlater)
        (hinv.step cpu) hlt hsorted

theorem pickCores_least (host : Host) :
    PicksLeast host (pickCores host) (allowedCpus host) := by
  have hstart : PicksLeast host
      { consumed := fun _ => false
        physicalCores := []
        smtSiblingOfCpu := List.replicate host.logicalCount uint32Max }
      [] := by
    intro core hcore
    cases hcore
  exact hstart.run (CoreInv.start host) (allowedCpus host)
    (fun _ hcpu => allowedCpus_lt host hcpu) (allowedCpus_sorted host)

/-- The picked CPUs are the allowed ones without an allowed sibling in front
of them. -/
theorem mem_pickCores_iff {cpu : ℕ} :
    cpu ∈ (pickCores host).physicalCores ↔
      cpu ∈ allowedCpus host ∧ ¬Sibling host cpu := by
  have hinv := pickCores_inv host
  have hleast := pickCores_least host
  constructor
  · intro hcpu
    refine ⟨hinv.mem_done cpu hcpu, ?_⟩
    rintro ⟨sib, hsib, hblock, hless⟩
    exact absurd (hleast cpu hcpu sib hsib hblock) (Nat.not_le_of_lt hless)
  · rintro ⟨hcpu, hnone⟩
    have hlt := allowedCpus_lt host hcpu
    obtain ⟨core, hcore, hblock⟩ := (hinv.consumed_iff cpu hlt).1
      (hinv.covered cpu hcpu hlt)
    have hback := IdPartition.mem_comm _ (hinv.lt core hcore) hblock
    rcases (hleast core hcore cpu hcpu hblock).lt_or_eq with hless | rfl
    · exact absurd ⟨core, hinv.mem_done core hcore, hback, hless⟩ hnone
    · exact hcore

theorem physicalCores_append (cpus : List ℕ) (pass : CorePass) :
    ∃ later, (cpus.foldl (pickCore host) pass).physicalCores =
      pass.physicalCores ++ later := by
  induction cpus generalizing pass with
  | nil => exact ⟨[], by simp⟩
  | cons cpu cpus ih =>
      obtain ⟨later, hlater⟩ := ih (pickCore host pass cpu)
      rw [List.foldl_cons, hlater]
      unfold pickCore
      split
      · exact ⟨later, rfl⟩
      · exact ⟨cpu :: later, by simp⟩

/-- The first allowed CPU is picked first. -/
theorem pickCores_first (host : Host) :
    ∃ later, (pickCores host).physicalCores = firstAllowed host :: later := by
  obtain ⟨first, rest, hallowed⟩ :=
    List.exists_cons_of_ne_nil (allowedCpus_ne_nil host)
  have hlt : first < host.logicalCount :=
    allowedCpus_lt host (by rw [hallowed]; exact List.mem_cons_self)
  obtain ⟨later, hlater⟩ := @physicalCores_append host rest
    (pickCore host { consumed := fun _ => false
                     physicalCores := []
                     smtSiblingOfCpu :=
                       List.replicate host.logicalCount uint32Max } first)
  refine ⟨later, ?_⟩
  rw [pickCores, firstAllowed, hallowed, List.foldl_cons, hlater, pickCore,
    if_neg (by simp; omega)]
  rfl

end Cores

section Groups

variable {host : Host} {physicalCores : List ℕ}

theorem ccdGroups_append (cpus : List ℕ) (pass : CcdPass) :
    ∃ later, (cpus.foldl (groupCore host physicalCores) pass).ccdGroups =
      pass.ccdGroups ++ later := by
  induction cpus generalizing pass with
  | nil => exact ⟨[], by simp⟩
  | cons cpu cpus ih =>
      obtain ⟨later, hlater⟩ := ih (groupCore host physicalCores pass cpu)
      rw [List.foldl_cons, hlater]
      unfold groupCore
      split
      · exact ⟨later, rfl⟩
      · exact ⟨physicalInGroup host physicalCores cpu :: later, by simp⟩

/-- The first group is the one of the first core. -/
theorem groupCores_first (first : ℕ) (later : List ℕ) :
    (groupCores host (first :: later)).ccdGroups[0]? =
      some (physicalInGroup host (first :: later) first) := by
  obtain ⟨groups, hgroups⟩ := @ccdGroups_append host
    (first :: later) later
    (groupCore host (first :: later)
      { assigned := fun _ => false
        ccdOfCpu := List.replicate host.logicalCount 0
        ccdGroups := [] } first)
  rw [groupCores, List.foldl_cons, hgroups, groupCore, if_neg (by simp)]
  rfl

end Groups

section Detected

variable (host : Host)

theorem groups_perm_cores :
    (groupCores host (pickCores host).physicalCores).ccdGroups.flatten.Perm
      (pickCores host).physicalCores := by
  have hcores := pickCores_inv host
  have hccds := groupCores_inv hcores.lt
  exact (List.perm_ext_iff_of_nodup hccds.nodup hcores.nodup).2 fun cpu =>
    ⟨hccds.mem_cores cpu, hccds.covered cpu⟩

theorem detectTopology_ccds :
    (detectTopology host).ccdGroups =
        (groupCores host (pickCores host).physicalCores).ccdGroups ∧
      (detectTopology host).ccdOfCpu =
        (groupCores host (pickCores host).physicalCores).ccdOfCpu := by
  constructor <;>
  · unfold detectTopology
    simp only [if_neg (pickCores_ne_nil host)]

theorem mem_detected_cores {cpu : ℕ} :
    cpu ∈ (detectTopology host).physicalCores ↔
      cpu ∈ allowedCpus host ∧ ¬Sibling host cpu := by
  rw [← (detected host).groups_perm.mem_iff, (detectTopology_ccds host).1,
    (groups_perm_cores host).mem_iff, mem_pickCores_iff]

/-- A CPU that is not picked is on record as a CPU of the first group, which
holds the core exactly if the CPU shares the L3 of the first allowed CPU. -/
theorem first_group_iff {cpu core : ℕ} (hcpu : cpu ∈ allowedCpus host)
    (hcore : core ∈ (detectTopology host).physicalCores)
    (hblock : core ∈ host.threadSiblings.block cpu) :
    (∃ group, (detectTopology host).ccdGroups[0]? = some group ∧
        core ∈ group) ↔
      cpu ∈ host.sharedL3.block (firstAllowed host) := by
  have hcpuLt := allowedCpus_lt host hcpu
  have hcoreLt := (detected host).cores_lt core hcore
  have hshare := host.nested cpu hcpuLt core hblock
  have hsame := host.sharedL3.same cpu hcpuLt core hshare
  rw [mem_detected_cores, ← mem_pickCores_iff] at hcore
  obtain ⟨later, hlater⟩ := pickCores_first host
  have hfirst : firstAllowed host ∈ (pickCores host).physicalCores := by
    rw [hlater]
    exact List.mem_cons_self
  have hfirstLt := (pickCores_inv host).lt _ hfirst
  have hgroup : (detectTopology host).ccdGroups[0]? =
      some (physicalInGroup host (pickCores host).physicalCores
        (firstAllowed host)) := by
    rw [(detectTopology_ccds host).1, hlater, groupCores_first]
  have hmem : ∀ other,
      other ∈ physicalInGroup host (pickCores host).physicalCores
          (firstAllowed host) ↔
        other ∈ host.sharedL3.block (firstAllowed host) ∧
          other ∈ (pickCores host).physicalCores :=
    fun _ => mem_physicalInGroup hfirst hfirstLt
  have hblocks : core ∈ host.sharedL3.block (firstAllowed host) ↔
      cpu ∈ host.sharedL3.block (firstAllowed host) := by
    constructor
    · intro hin
      rw [← host.sharedL3.same _ hfirstLt core hin, hsame]
      exact host.sharedL3.self_mem cpu hcpuLt
    · intro hin
      rw [← host.sharedL3.same _ hfirstLt cpu hin]
      exact hshare
  rw [← hblocks]
  constructor
  · rintro ⟨group, hat, hin⟩
    rw [hgroup] at hat
    obtain rfl := Option.some.inj hat
    exact ((hmem core).1 hin).1
  · intro hin
    exact ⟨_, hgroup, (hmem core).2 ⟨hin, hcore⟩⟩

/-- The cores and groups are right on every host, the map exactly if no
sibling outside the first CCD is allowed. -/
theorem detectTopology_grouped_iff :
    Grouped host (detectTopology host) ↔ SiblingsOnFirstCcd host := by
  have hdetected := detected host
  have hinv := pickCores_inv host
  have hlookup : ∀ cpu < host.logicalCount,
      (detectTopology host).ccdOfCpu[cpu]? =
        some ((detectTopology host).ccdOfCpu.getD cpu 0) := by
    intro cpu hcpu
    have hlt : cpu < (detectTopology host).ccdOfCpu.length := by
      rw [hdetected.ccd_length]
      exact hcpu
    rw [List.getElem?_eq_getElem hlt, List.getD_eq_getElem _ _ hlt]
  have hpick : ∀ cpu ∈ allowedCpus host,
      ∃ core ∈ (detectTopology host).physicalCores,
        core ∈ host.threadSiblings.block cpu := by
    intro cpu hcpu
    have hlt := allowedCpus_lt host hcpu
    obtain ⟨core, hcore, hblock⟩ := (hinv.consumed_iff cpu hlt).1
      (hinv.covered cpu hcpu hlt)
    refine ⟨core, ?_, IdPartition.mem_comm _ (hinv.lt core hcore) hblock⟩
    rw [mem_detected_cores, ← mem_pickCores_iff]
    exact hcore
  constructor
  · intro hgrouped cpu hcpu hsibling
    obtain ⟨core, hcore, hblock⟩ := hpick cpu hcpu
    have hnot : cpu ∉ (detectTopology host).physicalCores := fun hmem =>
      ((mem_detected_cores host).1 hmem).2 hsibling
    obtain ⟨k, group, hccd, hgroup, hin⟩ :=
      hgrouped.ccd_of_cpu cpu hcpu core hcore hblock
    rw [hlookup cpu (allowedCpus_lt host hcpu),
      hdetected.ccd_other cpu hnot] at hccd
    obtain rfl := Option.some.inj hccd
    exact (first_group_iff host hcpu hcore hblock).1 ⟨group, hgroup, hin⟩
  · intro hfirst
    refine ⟨hdetected.cores_nodup, ?_, ?_, hdetected.groups_perm,
      hdetected.group_ne_nil, ?_, ?_⟩
    · exact fun core hcore => ((mem_detected_cores host).1 hcore).1
    · intro cpu hcpu
      obtain ⟨core, hcore, hblock⟩ := hpick cpu hcpu
      refine ⟨core, ⟨hcore, hblock⟩, ?_⟩
      rintro other ⟨hother, hotherBlock⟩
      have hcpuLt := allowedCpus_lt host hcpu
      rw [mem_detected_cores, ← mem_pickCores_iff] at hcore hother
      refine hinv.separate core hcore other hother ?_
      rw [host.threadSiblings.same cpu hcpuLt core hblock]
      exact hotherBlock
    · have hccds := groupCores_inv hinv.lt
      intro group hgroup core hcore other hother
      rw [(detectTopology_ccds host).1] at hgroup
      rw [mem_detected_cores, ← mem_pickCores_iff] at hother
      exact hccds.closed group hgroup core hcore other hother
    · intro cpu hcpu core hcore hblock
      have hcpuLt := allowedCpus_lt host hcpu
      by_cases hpicked : cpu ∈ (detectTopology host).physicalCores
      · have hsame : core = cpu := by
          have hcore' := hcore
          have hpicked' := hpicked
          rw [mem_detected_cores, ← mem_pickCores_iff] at hcore' hpicked'
          exact hinv.separate cpu hpicked' core hcore' hblock
        subst hsame
        obtain ⟨group, hgroup, hin⟩ :=
          List.mem_flatten.1 (hdetected.groups_perm.mem_iff.2 hpicked)
        obtain ⟨k, hk, rfl⟩ := List.mem_iff_getElem.1 hgroup
        have hat := List.getElem?_eq_getElem hk
        refine ⟨k, _, ?_, hat, hin⟩
        rw [hlookup core hcpuLt, hdetected.ccd_eq k _ hat core hin]
      · have hsibling : Sibling host cpu := by
          by_contra hnone
          exact hpicked ((mem_detected_cores host).2 ⟨hcpu, hnone⟩)
        obtain ⟨group, hgroup, hin⟩ :=
          (first_group_iff host hcpu hcore hblock).2 (hfirst cpu hcpu hsibling)
        refine ⟨0, group, ?_, hgroup, hin⟩
        rw [hlookup cpu hcpuLt, hdetected.ccd_other cpu hpicked]

end Detected

/-- Pairs of ids. -/
def pairIds : IdPartition 4 where
  block := fun id => if id < 2 then [0, 1] else [2, 3]
  sorted := by decide
  self_mem := by decide
  lt := by decide
  same := by decide

/-- Two CCDs of one SMT core each. -/
def smtHost : Host where
  logicalCount := 4
  logical_pos := by decide
  logical_lt := by decide
  affinityMask := fun _ => true
  threadSiblings := pairIds
  sharedL3 := pairIds
  nested := by
    intro cpu _ sib hsib
    exact hsib
  l3Kib := fun _ => 32768

/-- CPU 3 is a sibling on the second CCD and on record for the first. -/
theorem smtHost_not_grouped : ¬Grouped smtHost (detectTopology smtHost) := by
  intro hgrouped
  have hccdOf : (detectTopology smtHost).ccdOfCpu[3]? = some 0 := by decide
  have hfirst : (detectTopology smtHost).ccdGroups[0]? = some [0] := by decide
  obtain ⟨k, group, hccd, hgroup, hin⟩ :=
    hgrouped.ccd_of_cpu 3 (by decide) 2 (by decide) (by decide)
  rw [hccdOf] at hccd
  obtain rfl := Option.some.inj hccd
  rw [hfirst] at hgroup
  obtain rfl := Option.some.inj hgroup
  exact absurd hin (by decide)

end Citor.TopologyMap
