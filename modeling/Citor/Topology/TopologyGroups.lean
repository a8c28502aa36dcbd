import Citor.Topology.HostTopology

/-!
# What topology detection delivers

The core pass picks at most one CPU per core; the grouping pass cuts the picked
CPUs into non-empty groups by L3 and records the group index of every picked
CPU.  Both follow from what one iteration preserves.
-/

namespace Citor.TopologyGroups

open Citor.HostTopology
open Citor.MachineWord

theorem IdPartition.mem_comm {count : ℕ} (ids : IdPartition count)
    {left right : ℕ} (hleft : left < count)
    (hmem : right ∈ ids.block left) : left ∈ ids.block right := by
  rw [ids.same left hleft right hmem]
  exact ids.self_mem left hleft

theorem IdPartition.nodup {count : ℕ} (ids : IdPartition count) {id : ℕ}
    (hid : id < count) : (ids.block id).Nodup :=
  (ids.sorted id hid).imp fun hlt => Nat.ne_of_lt hlt

section Allowed

theorem allowedCpus_lt (host : Host) {cpu : ℕ}
    (hcpu : cpu ∈ allowedCpus host) : cpu < host.logicalCount := by
  unfold allowedCpus at hcpu
  simp only at hcpu
  split at hcpu
  · exact List.mem_range.1 hcpu
  · have hrange := List.mem_of_mem_filter hcpu
    rw [List.mem_range] at hrange
    omega

theorem allowedCpus_ne_nil (host : Host) : allowedCpus host ≠ [] := by
  unfold allowedCpus
  simp only
  split
  · have := host.logical_pos
    rw [Ne, List.range_eq_nil]
    omega
  · assumption

end Allowed

section Cores

/-- What holds between two iterations of the core pass. -/
structure CoreInv (host : Host) (pass : CorePass) (done : List ℕ) :
    Prop where
  nodup : pass.physicalCores.Nodup
  mem_done : ∀ cpu ∈ pass.physicalCores, cpu ∈ done
  lt : ∀ cpu ∈ pass.physicalCores, cpu < host.logicalCount
  consumed_iff : ∀ cpu < host.logicalCount, pass.consumed cpu = true ↔
    ∃ core ∈ pass.physicalCores, cpu ∈ host.threadSiblings.block core
  /-- No two cores share a sibling list. -/
  separate : ∀ core ∈ pass.physicalCores, ∀ other ∈ pass.physicalCores,
    other ∈ host.threadSiblings.block core → other = core
  covered : ∀ cpu ∈ done, cpu < host.logicalCount → pass.consumed cpu = true
  length_eq : pass.smtSiblingOfCpu.length = host.logicalCount
  /-- A recorded sibling is another CPU of the same core. -/
  sibling : ∀ cpu < host.logicalCount,
    pass.smtSiblingOfCpu.getD cpu uint32Max ≠ uint32Max →
      pass.smtSiblingOfCpu.getD cpu uint32Max ∈
          host.threadSiblings.block cpu ∧
        pass.smtSiblingOfCpu.getD cpu uint32Max ≠ cpu

theorem getD_set {values : List ℕ} {index other value default : ℕ}
    (hindex : index < values.length) :
    (values.set index value).getD other default =
      if other = index then value else values.getD other default := by
  by_cases hother : other = index
  · subst hother
    simp [List.getD_eq_getElem?_getD, hindex]
  · simp [List.getD_eq_getElem?_getD, hother, Ne.symm hother]

/-- The recorded siblings are other CPUs of the same core. -/
def SiblingsSound (host : Host) (table : List ℕ) : Prop :=
  table.length = host.logicalCount ∧
    ∀ cpu < host.logicalCount, table.getD cpu uint32Max ≠ uint32Max →
      table.getD cpu uint32Max ∈ host.threadSiblings.block cpu ∧
        table.getD cpu uint32Max ≠ cpu

theorem SiblingsSound.set {host : Host} {table : List ℕ} {cpu sib : ℕ}
    (hsound : SiblingsSound host table) (hcpu : cpu < host.logicalCount)
    (hsib : sib ∈ host.threadSiblings.block cpu) (hne : sib ≠ cpu) :
    SiblingsSound host (table.set cpu sib) := by
  obtain ⟨hlength, hentries⟩ := hsound
  refine ⟨by rwa [List.length_set], fun other hother hset => ?_⟩
  rw [getD_set (by omega)] at hset ⊢
  by_cases heq : other = cpu
  · subst heq
    simp only [if_true]
    exact ⟨hsib, hne⟩
  · simp only [heq, if_false] at hset ⊢
    exact hentries other hother hset

theorem SiblingsSound.stamp {host : Host} {table : List ℕ} {cpu sib : ℕ}
    (hsound : SiblingsSound host table) (hcpu : cpu < host.logicalCount)
    (hsib : sib ∈ host.threadSiblings.block cpu) :
    SiblingsSound host (stampSibling cpu table sib) := by
  unfold stampSibling
  by_cases hskip : table.length ≤ sib ∨ sib = cpu
  · rwa [if_pos hskip]
  · rw [if_neg hskip]
    have hne : sib ≠ cpu := fun heq => hskip (Or.inr heq)
    have hsibLt := host.threadSiblings.lt cpu hcpu sib hsib
    have hforward : SiblingsSound host
        (if table.getD cpu uint32Max = uint32Max then table.set cpu sib
          else table) := by
      split
      · exact hsound.set hcpu hsib hne
      · exact hsound
    simp only
    generalize (if table.getD cpu uint32Max = uint32Max then
      table.set cpu sib else table) = forward at hforward ⊢
    split
    · exact hforward.set hsibLt
        (IdPartition.mem_comm _ hcpu hsib) (Ne.symm hne)
    · exact hforward

theorem SiblingsSound.stampAll {host : Host} {table siblings : List ℕ}
    {cpu : ℕ} (hsound : SiblingsSound host table)
    (hcpu : cpu < host.logicalCount)
    (hsiblings : ∀ sib ∈ siblings, sib ∈ host.threadSiblings.block cpu) :
    SiblingsSound host (siblings.foldl (stampSibling cpu) table) := by
  induction siblings generalizing table with
  | nil => exact hsound
  | cons sib siblings ih =>
      exact ih (hsound.stamp hcpu (hsiblings sib (by simp)))
        fun other hother => hsiblings other (by simp [hother])

theorem CoreInv.start (host : Host) :
    CoreInv host
      { consumed := fun _ => false
        physicalCores := []
        smtSiblingOfCpu := List.replicate host.logicalCount uint32Max }
      [] := by
  constructor <;> simp

theorem CoreInv.step {host : Host} {pass : CorePass} {done : List ℕ}
    (hinv : CoreInv host pass done) (cpu : ℕ) :
    CoreInv host (pickCore host pass cpu) (done ++ [cpu]) := by
  unfold pickCore
  by_cases hskip : host.logicalCount ≤ cpu ∨ pass.consumed cpu = true
  · rw [if_pos hskip]
    refine { hinv with mem_done := ?_, covered := ?_ }
    · intro core hcore
      exact List.mem_append_left _ (hinv.mem_done core hcore)
    · intro other hother hlt
      rcases List.mem_append.1 hother with hdone | hnew
      · exact hinv.covered other hdone hlt
      · obtain rfl := List.mem_singleton.1 hnew
        exact hskip.resolve_left (by omega)
  · rw [if_neg hskip]
    push Not at hskip
    obtain ⟨hcpu, hfresh⟩ := hskip
    have hapart : ∀ core ∈ pass.physicalCores,
        cpu ∉ host.threadSiblings.block core := by
      intro core hcore hmem
      exact hfresh ((hinv.consumed_iff cpu hcpu).2 ⟨core, hcore, hmem⟩)
    have hself := host.threadSiblings.self_mem cpu hcpu
    have hsound : SiblingsSound host ((host.threadSiblings.block cpu).foldl
        (stampSibling cpu) pass.smtSiblingOfCpu) :=
      SiblingsSound.stampAll ⟨hinv.length_eq, hinv.sibling⟩ hcpu
        fun _ hsib => hsib
    constructor
    · refine List.nodup_append.2 ⟨hinv.nodup, List.nodup_singleton _, ?_⟩
      intro core hcore other hother heq
      obtain rfl := List.mem_singleton.1 hother
      subst heq
      exact hapart _ hcore hself
    · intro core hcore
      rcases List.mem_append.1 hcore with hold | hnew
      · exact List.mem_append_left _ (hinv.mem_done core hold)
      · exact List.mem_append_right _ hnew
    · intro core hcore
      rcases List.mem_append.1 hcore with hold | hnew
      · exact hinv.lt core hold
      · obtain rfl := List.mem_singleton.1 hnew
        exact hcpu
    · intro other hother
      simp only [Bool.or_eq_true, decide_eq_true_eq, Bool.and_eq_true,
        List.mem_append, List.mem_singleton]
      constructor
      · rintro ((rfl | ⟨-, hsib⟩) | hconsumed)
        · exact ⟨other, Or.inr rfl, hself⟩
        · exact ⟨cpu, Or.inr rfl, hsib⟩
        · obtain ⟨core, hcore, hmem⟩ :=
            (hinv.consumed_iff other hother).1 hconsumed
          exact ⟨core, Or.inl hcore, hmem⟩
      · rintro ⟨core, hcore | rfl, hmem⟩
        · exact Or.inr ((hinv.consumed_iff other hother).2 ⟨core, hcore, hmem⟩)
        · exact Or.inl (Or.inr ⟨hother, hmem⟩)
    · intro core hcore other hother hmem
      rcases List.mem_append.1 hcore with hold | hnew <;>
        rcases List.mem_append.1 hother with hold' | hnew'
      · exact hinv.separate core hold other hold' hmem
      · obtain rfl := List.mem_singleton.1 hnew'
        exact absurd hmem (hapart core hold)
      · obtain rfl := List.mem_singleton.1 hnew
        exact absurd (IdPartition.mem_comm _ hcpu hmem) (hapart other hold')
      · rw [List.mem_singleton.1 hnew, List.mem_singleton.1 hnew']
    · intro other hother hlt
      simp only [Bool.or_eq_true, decide_eq_true_eq, Bool.and_eq_true]
      rcases List.mem_append.1 hother with hdone | hnew
      · exact Or.inr (hinv.covered other hdone hlt)
      · exact Or.inl (Or.inl (List.mem_singleton.1 hnew))
    · exact hsound.1
    · exact hsound.2

theorem CoreInv.run {host : Host} {pass : CorePass} {done : List ℕ}
    (hinv : CoreInv host pass done) (cpus : List ℕ) :
    CoreInv host (cpus.foldl (pickCore host) pass) (done ++ cpus) := by
  induction cpus generalizing pass done with
  | nil => simpa using hinv
  | cons cpu cpus ih =>
      have hrest := ih (hinv.step cpu)
      simpa using hrest

theorem pickCores_inv (host : Host) :
    CoreInv host (pickCores host) (allowedCpus host) :=
  (CoreInv.start host).run (allowedCpus host)

theorem pickCores_ne_nil (host : Host) :
    (pickCores host).physicalCores ≠ [] := by
  obtain ⟨cpu, hcpu⟩ := List.exists_mem_of_ne_nil _ (allowedCpus_ne_nil host)
  have hinv := pickCores_inv host
  have hlt := allowedCpus_lt host hcpu
  obtain ⟨core, hcore, -⟩ :=
    (hinv.consumed_iff cpu hlt).1 (hinv.covered cpu hcpu hlt)
  exact List.ne_nil_of_mem hcore

end Cores

section Ccds

variable {host : Host} {physicalCores : List ℕ}

theorem physicalInGroup_eq {cpu : ℕ} (hmem : cpu ∈ physicalCores)
    (hlt : cpu < host.logicalCount) :
    physicalInGroup host physicalCores cpu =
      (host.sharedL3.block cpu).filter (· ∈ physicalCores) := by
  have hself := host.sharedL3.self_mem cpu hlt
  have hlisted : host.sharedL3.block cpu ≠ [] := List.ne_nil_of_mem hself
  have hfound : (host.sharedL3.block cpu).filter (· ∈ physicalCores) ≠ [] :=
    List.ne_nil_of_mem (List.mem_filter.2 ⟨hself, by simpa using hmem⟩)
  simp only [physicalInGroup, if_neg hlisted, if_neg hfound]

theorem mem_physicalInGroup {cpu other : ℕ} (hmem : cpu ∈ physicalCores)
    (hlt : cpu < host.logicalCount) :
    other ∈ physicalInGroup host physicalCores cpu ↔
      other ∈ host.sharedL3.block cpu ∧ other ∈ physicalCores := by
  rw [physicalInGroup_eq hmem hlt, List.mem_filter, decide_eq_true_eq]

theorem getD_foldl_set (group : List ℕ) (table : List ℕ) (value cpu : ℕ) :
    (group.foldl (fun table physCpu => table.set physCpu value) table).getD
        cpu 0 =
      if cpu ∈ group ∧ cpu < table.length then value
      else table.getD cpu 0 := by
  induction group generalizing table with
  | nil => simp
  | cons head group ih =>
      rw [List.foldl_cons, ih, List.length_set]
      by_cases hhead : head < table.length
      · rw [getD_set hhead]
        by_cases hcpu : cpu = head
        · subst hcpu
          simp [hhead]
        · simp [hcpu]
      · rw [List.set_eq_of_length_le (Nat.le_of_not_lt hhead)]
        by_cases hcpu : cpu = head
        · subst hcpu
          simp [hhead]
        · simp [hcpu]

theorem length_foldl_set (group : List ℕ) (table : List ℕ) (value : ℕ) :
    (group.foldl (fun table physCpu => table.set physCpu value)
      table).length = table.length := by
  induction group generalizing table with
  | nil => rfl
  | cons head group ih => rw [List.foldl_cons, ih, List.length_set]

/-- What holds between two iterations of the grouping pass. -/
structure CcdInv (host : Host) (physicalCores : List ℕ) (pass : CcdPass)
    (done : List ℕ) : Prop where
  assigned_iff : ∀ cpu < host.logicalCount, pass.assigned cpu = true ↔
    cpu ∈ pass.ccdGroups.flatten
  nodup : pass.ccdGroups.flatten.Nodup
  mem_cores : ∀ cpu ∈ pass.ccdGroups.flatten, cpu ∈ physicalCores
  nonempty : ∀ group ∈ pass.ccdGroups, group ≠ []
  /-- A group holds every core that shares the L3 of one of its cores. -/
  closed : ∀ group ∈ pass.ccdGroups, ∀ cpu ∈ group,
    ∀ other ∈ physicalCores, other ∈ group ↔
      other ∈ host.sharedL3.block cpu
  covered : ∀ cpu ∈ done, cpu ∈ pass.ccdGroups.flatten
  length_eq : pass.ccdOfCpu.length = host.logicalCount
  ccd_eq : ∀ k group, pass.ccdGroups[k]? = some group →
    ∀ cpu ∈ group, pass.ccdOfCpu.getD cpu 0 = k
  ccd_other : ∀ cpu, cpu ∉ pass.ccdGroups.flatten →
    pass.ccdOfCpu.getD cpu 0 = 0

theorem CcdInv.start (host : Host) (physicalCores : List ℕ) :
    CcdInv host physicalCores
      { assigned := fun _ => false
        ccdOfCpu := List.replicate host.logicalCount 0
        ccdGroups := [] }
      [] := by
  constructor <;> simp [List.getD_eq_getElem?_getD, List.getElem?_replicate]
  intro cpu
  split <;> rfl

theorem CcdInv.step {pass : CcdPass} {done : List ℕ} {cpu : ℕ}
    (hinv : CcdInv host physicalCores pass done)
    (hlt : ∀ core ∈ physicalCores, core < host.logicalCount)
    (hcpu : cpu ∈ physicalCores) :
    CcdInv host physicalCores (groupCore host physicalCores pass cpu)
      (done ++ [cpu]) := by
  have hcpuLt := hlt cpu hcpu
  unfold groupCore
  by_cases hskip : cpu < host.logicalCount ∧ pass.assigned cpu = true
  · rw [if_pos hskip]
    refine { hinv with covered := fun other hother => ?_ }
    rcases List.mem_append.1 hother with hold | hnew
    · exact hinv.covered other hold
    · obtain rfl := List.mem_singleton.1 hnew
      exact (hinv.assigned_iff other hcpuLt).1 hskip.2
  · rw [if_neg hskip]
    have hfresh : cpu ∉ pass.ccdGroups.flatten := fun hmem =>
      hskip ⟨hcpuLt, (hinv.assigned_iff cpu hcpuLt).2 hmem⟩
    have hgroup : ∀ other, other ∈ physicalInGroup host physicalCores cpu ↔
        other ∈ host.sharedL3.block cpu ∧ other ∈ physicalCores :=
      fun other => mem_physicalInGroup hcpu hcpuLt
    have hgroupNodup : (physicalInGroup host physicalCores cpu).Nodup := by
      rw [physicalInGroup_eq hcpu hcpuLt]
      exact (IdPartition.nodup _ hcpuLt).filter _
    have hself : cpu ∈ physicalInGroup host physicalCores cpu :=
      (hgroup cpu).2 ⟨host.sharedL3.self_mem cpu hcpuLt, hcpu⟩
    -- A core of the new group in an old one would bring `cpu` along.
    have hapart : ∀ other ∈ physicalInGroup host physicalCores cpu,
        other ∉ pass.ccdGroups.flatten := by
      intro other hother hold
      obtain ⟨group, hmem, hin⟩ := List.mem_flatten.1 hold
      obtain ⟨hshared, -⟩ := (hgroup other).1 hother
      have hback := IdPartition.mem_comm _ hcpuLt hshared
      exact hfresh (List.mem_flatten.2
        ⟨group, hmem, (hinv.closed group hmem other hin cpu hcpu).2 hback⟩)
    generalize physicalInGroup host physicalCores cpu = group
      at hgroup hgroupNodup hself hapart ⊢
    have hflatten : (pass.ccdGroups ++ [group]).flatten =
        pass.ccdGroups.flatten ++ group := by simp
    constructor
    · intro other hother
      simp only [hflatten, Bool.or_eq_true, Bool.and_eq_true,
        decide_eq_true_eq, List.mem_append]
      rw [hinv.assigned_iff other hother]
      constructor
      · rintro (⟨-, hnew⟩ | hold)
        · exact Or.inr hnew
        · exact Or.inl hold
      · rintro (hold | hnew)
        · exact Or.inr hold
        · exact Or.inl ⟨hother, hnew⟩
    · simp only [hflatten]
      refine List.nodup_append.2 ⟨hinv.nodup, hgroupNodup, ?_⟩
      intro old hold new hnew heq
      exact hapart new hnew (heq ▸ hold)
    · intro other hother
      simp only [hflatten] at hother
      rcases List.mem_append.1 hother with hold | hnew
      · exact hinv.mem_cores other hold
      · exact ((hgroup other).1 hnew).2
    · intro member hmember
      rcases List.mem_append.1 hmember with hold | hnew
      · exact hinv.nonempty member hold
      · obtain rfl := List.mem_singleton.1 hnew
        exact List.ne_nil_of_mem hself
    · intro member hmember core hcore other hother
      rcases List.mem_append.1 hmember with hold | hnew
      · exact hinv.closed member hold core hcore other hother
      · obtain rfl := List.mem_singleton.1 hnew
        have hblock := host.sharedL3.same cpu hcpuLt core
          ((hgroup core).1 hcore).1
        rw [hgroup, hblock]
        exact and_iff_left hother
    · intro other hother
      simp only [hflatten]
      rcases List.mem_append.1 hother with hold | hnew
      · exact List.mem_append_left _ (hinv.covered other hold)
      · obtain rfl := List.mem_singleton.1 hnew
        exact List.mem_append_right _ hself
    · simp only [length_foldl_set]
      exact hinv.length_eq
    · intro k member hmember core hcore
      simp only [getD_foldl_set]
      rcases Nat.lt_or_ge k pass.ccdGroups.length with hold | hnew
      · rw [List.getElem?_append_left hold] at hmember
        have hin : core ∈ pass.ccdGroups.flatten := List.mem_flatten.2
          ⟨member, List.mem_of_getElem? hmember, hcore⟩
        rw [if_neg fun hboth => hapart core hboth.1 hin]
        exact hinv.ccd_eq k member hmember core hcore
      · rw [List.getElem?_append_right hnew] at hmember
        obtain ⟨hindex, hmember⟩ := List.getElem?_eq_some_iff.1 hmember
        simp only [List.length_singleton] at hindex
        have hlast : k = pass.ccdGroups.length := by omega
        have hsame : group = member := by simpa [hlast] using hmember
        subst hsame
        have hcoreLt : core < pass.ccdOfCpu.length := by
          rw [hinv.length_eq]
          exact hlt core ((hgroup core).1 hcore).2
        rw [if_pos ⟨hcore, hcoreLt⟩, hlast]
    · intro other hother
      simp only [hflatten, List.mem_append, not_or] at hother
      simp only [getD_foldl_set]
      rw [if_neg fun hboth => hother.2 hboth.1]
      exact hinv.ccd_other other hother.1

theorem CcdInv.run {pass : CcdPass} {done : List ℕ}
    (hinv : CcdInv host physicalCores pass done)
    (hlt : ∀ core ∈ physicalCores, core < host.logicalCount)
    (cpus : List ℕ) (hcpus : ∀ cpu ∈ cpus, cpu ∈ physicalCores) :
    CcdInv host physicalCores
      (cpus.foldl (groupCore host physicalCores) pass) (done ++ cpus) := by
  induction cpus generalizing pass done with
  | nil => simpa using hinv
  | cons cpu cpus ih =>
      have hrest := ih (hinv.step hlt (hcpus cpu (by simp)))
        fun other hother => hcpus other (by simp [hother])
      simpa using hrest

theorem groupCores_inv
    (hlt : ∀ core ∈ physicalCores, core < host.logicalCount) :
    CcdInv host physicalCores (groupCores host physicalCores)
      physicalCores :=
  (CcdInv.start host physicalCores).run hlt physicalCores
    fun _ hcpu => hcpu

end Ccds

section PreferredCcd

theorem largestIdx_lt {count : ℕ} (entries : List (ℕ × ℕ))
    (hentries : ∀ entry ∈ entries, entry.2 < count) (best : LargestL3)
    (hbest : best.largestIdx < count) :
    (entries.foldl LargestL3.add best).largestIdx < count := by
  induction entries generalizing best with
  | nil => exact hbest
  | cons entry entries ih =>
      refine ih (fun other hother => hentries other (by simp [hother])) _ ?_
      obtain ⟨kib, ccd⟩ := entry
      have hccd : ccd < count := hentries (kib, ccd) (by simp)
      unfold LargestL3.add
      simp only
      split
      · exact hccd
      · split
        · exact hbest
        · exact hbest

theorem largestOther_lt {l3Kib : List ℕ} {bspCcd ccd : ℕ}
    (hother : largestOther l3Kib bspCcd = some ccd) : ccd < l3Kib.length := by
  have hentries : ∀ entry ∈ l3Kib.zipIdx, entry.2 < l3Kib.length := by
    intro entry hentry
    simpa using List.snd_lt_of_mem_zipIdx hentry
  unfold largestOther at hother
  generalize l3Kib.zipIdx = entries at hentries hother
  have hstart : ∀ ccd, (0, (none : Option ℕ)).2 = some ccd →
      ccd < l3Kib.length := by simp
  generalize ((0, none) : ℕ × Option ℕ) = best at hother hstart
  induction entries generalizing best with
  | nil => exact hstart ccd hother
  | cons entry entries ih =>
      refine ih (fun other hmem => hentries other (by simp [hmem])) _ hother ?_
      intro picked hpicked
      simp only at hpicked
      split at hpicked
      · exact hstart picked hpicked
      · split at hpicked
        · simp only [Option.some.injEq] at hpicked
          exact hpicked ▸ hentries entry (by simp)
        · exact hstart picked hpicked

theorem pickPreferredCcd_lt {l3Kib : List ℕ} (ccdOfCpu : List ℕ)
    (hne : l3Kib ≠ []) : pickPreferredCcd l3Kib ccdOfCpu < l3Kib.length := by
  have hlargest : (largestL3 l3Kib).largestIdx < l3Kib.length := by
    refine largestIdx_lt _ (fun entry hentry => ?_) _
      (List.length_pos_iff.2 hne)
    simpa using List.snd_lt_of_mem_zipIdx hentry
  unfold pickPreferredCcd
  simp only
  split
  · exact hlargest
  · cases hother : largestOther l3Kib (ccdOfCpu.headD uint32Max) with
    | none => exact hlargest
    | some ccd => exact largestOther_lt hother

end PreferredCcd

section Order

theorem pinningOrder_perm (smtSiblingOfCpu group : List ℕ) :
    (pinningOrder smtSiblingOfCpu group).Perm group := by
  unfold pinningOrder
  simp only [decide_not]
  exact (List.filter_append_perm _ _).trans (List.reverse_perm _)

theorem flatMap_perm_flatten {order : List ℕ → List ℕ}
    (horder : ∀ group, (order group).Perm group) (groups : List (List ℕ)) :
    (groups.flatMap order).Perm groups.flatten := by
  induction groups with
  | nil => exact List.Perm.refl _
  | cons group groups ih =>
      rw [List.flatMap_cons, List.flatten_cons]
      exact (horder group).append ih

end Order

/-- What the pin ordering relies on. -/
structure Detected (host : Host) (topo : Topology) : Prop where
  cores_ne_nil : topo.physicalCores ≠ []
  cores_nodup : topo.physicalCores.Nodup
  cores_lt : ∀ cpu ∈ topo.physicalCores, cpu < host.logicalCount
  groups_perm : topo.ccdGroups.flatten.Perm topo.physicalCores
  group_ne_nil : ∀ group ∈ topo.ccdGroups, group ≠ []
  ccd_length : topo.ccdOfCpu.length = host.logicalCount
  ccd_eq : ∀ k group, topo.ccdGroups[k]? = some group →
    ∀ cpu ∈ group, topo.ccdOfCpu.getD cpu 0 = k
  /-- A CPU that is not pinned is on record as a CPU of the first CCD. -/
  ccd_other : ∀ cpu, cpu ∉ topo.physicalCores →
    topo.ccdOfCpu.getD cpu 0 = 0
  preferred_lt : topo.preferredCcd < topo.ccdGroups.length
  sibling_length : topo.smtSiblingOfCpu.length = host.logicalCount
  sibling_other : ∀ cpu ∈ topo.physicalCores,
    topo.smtSiblingOfCpu.getD cpu uint32Max ≠ uint32Max →
      topo.smtSiblingOfCpu.getD cpu uint32Max < host.logicalCount ∧
        topo.smtSiblingOfCpu.getD cpu uint32Max ∉ topo.physicalCores

theorem detected (host : Host) : Detected host (detectTopology host) := by
  have hcores := pickCores_inv host
  have hccds := groupCores_inv hcores.lt
  have hflatten : (groupCores host
      (pickCores host).physicalCores).ccdGroups.flatten.Perm
      (pickCores host).physicalCores :=
    (List.perm_ext_iff_of_nodup hccds.nodup hcores.nodup).2 fun cpu =>
      ⟨hccds.mem_cores cpu, hccds.covered cpu⟩
  have hreordered := (flatMap_perm_flatten
    (pinningOrder_perm (pickCores host).smtSiblingOfCpu) _).trans hflatten
  have hnil := pickCores_ne_nil host
  unfold detectTopology
  simp only [if_neg hnil, if_pos hreordered.length_eq]
  generalize pickCores host = cores at *
  generalize groupCores host cores.physicalCores = ccds at *
  have hgroups : ccds.ccdGroups ≠ [] := by
    intro hempty
    rw [hempty, List.flatten_nil] at hflatten
    exact hnil hflatten.nil_eq.symm
  constructor
  · intro hempty
    simp only at hempty
    rw [hempty] at hreordered
    exact hnil hreordered.nil_eq.symm
  · exact hreordered.nodup_iff.2 hcores.nodup
  · exact fun cpu hcpu => hcores.lt cpu (hreordered.mem_iff.1 hcpu)
  · exact hflatten.trans hreordered.symm
  · exact hccds.nonempty
  · exact hccds.length_eq
  · exact hccds.ccd_eq
  · exact fun cpu hcpu => hccds.ccd_other cpu fun hmem =>
      hcpu (hreordered.mem_iff.2 (hflatten.mem_iff.1 hmem))
  · have hlt := pickPreferredCcd_lt ccds.ccdOfCpu
      (show l3KibOfCcd host ccds.ccdGroups ≠ [] by
        simpa [l3KibOfCcd] using hgroups)
    simpa [l3KibOfCcd] using hlt
  · exact hcores.length_eq
  · intro cpu hcpu hrecorded
    have hcore := hreordered.mem_iff.1 hcpu
    have hlt := hcores.lt cpu hcore
    obtain ⟨hblock, hne⟩ := hcores.sibling cpu hlt hrecorded
    refine ⟨host.threadSiblings.lt cpu hlt _ hblock, fun hmem => hne ?_⟩
    exact hcores.separate cpu hcore _ (hreordered.mem_iff.1 hmem) hblock

end Citor.TopologyGroups
