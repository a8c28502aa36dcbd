import Citor.Topology.PinOrder

/-!
# What `reserveProducerCpuFirst` keeps of a pin list

The reservation never loses or doubles a pin and adds only SMT siblings of the
pins it was given.  The preferred CCD leads, a pool of two sits on one core,
and every other pool keeps the order of its pins in front of what it appends.
The tables of the topology are arbitrary: siblings may be shared, pinned
already or recorded in one direction only.
-/

namespace Citor.PinReservation

open Citor.HostTopology
open Citor.MachineWord
open Citor.PinOrder

/-- The topology records `sib` as the SMT sibling of `cpu`. -/
def RecordedSibling (topo : Topology) (cpu sib : ℕ) : Prop :=
  topo.smtSiblingOfCpu[cpu]? = some sib ∧ sib ≠ uint32Max ∧ sib ≠ cpu

/-- What a pool of `participants` gets for its pins. -/
structure Reserved (topo : Topology) (standalone : Bool) (cpuPins : List ℕ)
    (participants : ℕ) (pins : List ℕ) : Prop where
  nodup : pins.Nodup
  kept : cpuPins ⊆ pins
  extra : ∀ cpu ∈ pins, cpu ∉ cpuPins →
    ∃ pin ∈ cpuPins, RecordedSibling topo pin cpu
  preferred_first : standalone = true →
    (∃ cpu ∈ cpuPins, onPreferred topo cpu = true) →
    ∃ first, pins[0]? = some first ∧ onPreferred topo first = true
  sibling_second : participants = 2 → ∀ first sib, pins[0]? = some first →
    RecordedSibling topo first sib → pins[1]? = some sib
  in_order : participants ≠ 2 → ∃ front extras, pins = front ++ extras ∧
    front.filter (onPreferred topo) = cpuPins.filter (onPreferred topo) ∧
    front.filter (fun cpu => ¬onPreferred topo cpu) =
      cpuPins.filter (fun cpu => ¬onPreferred topo cpu)

section Preferred

variable {topo : Topology}

theorem preferredFirst_of_lt (hlt : topo.preferredCcd < topo.ccdGroups.length)
    (pins : List ℕ) :
    preferredFirst topo pins = pins.filter (onPreferred topo) ++
      pins.filter (fun cpu => ¬onPreferred topo cpu) := by
  have hperm := List.filter_append_perm (onPreferred topo) pins
  have hlength : (pins.filter (onPreferred topo) ++
      pins.filter (fun cpu => ¬onPreferred topo cpu)).length =
        pins.length := by
    simpa using hperm.length_eq
  simp only [preferredFirst, if_pos hlt, if_pos hlength]

/-- The pins in front of both exceptions. -/
def basePins (topo : Topology) (standalone : Bool) (cpuPins : List ℕ) :
    List ℕ :=
  if standalone then preferredFirst topo cpuPins else cpuPins

theorem basePins_perm (hlt : topo.preferredCcd < topo.ccdGroups.length)
    (standalone : Bool) (cpuPins : List ℕ) :
    (basePins topo standalone cpuPins).Perm cpuPins := by
  unfold basePins
  split
  · rw [preferredFirst_of_lt hlt]
    simpa using List.filter_append_perm (onPreferred topo) cpuPins
  · exact .refl _

theorem filter_basePins (hlt : topo.preferredCcd < topo.ccdGroups.length)
    (standalone : Bool) (cpuPins : List ℕ) :
    (basePins topo standalone cpuPins).filter (onPreferred topo) =
        cpuPins.filter (onPreferred topo) ∧
      (basePins topo standalone cpuPins).filter
          (fun cpu => ¬onPreferred topo cpu) =
        cpuPins.filter (fun cpu => ¬onPreferred topo cpu) := by
  unfold basePins
  split
  · rw [preferredFirst_of_lt hlt]
    simp [List.filter_append, List.filter_filter]
  · exact ⟨rfl, rfl⟩

theorem head_basePins (hlt : topo.preferredCcd < topo.ccdGroups.length)
    {cpuPins : List ℕ} (hsome : ∃ cpu ∈ cpuPins, onPreferred topo cpu = true) :
    ∃ first, (basePins topo true cpuPins)[0]? = some first ∧
      onPreferred topo first = true := by
  obtain ⟨cpu, hcpu, hon⟩ := hsome
  have hmem : cpu ∈ cpuPins.filter (onPreferred topo) :=
    List.mem_filter.2 ⟨hcpu, hon⟩
  obtain ⟨first, rest, hfront⟩ :=
    List.exists_cons_of_ne_nil (List.ne_nil_of_mem hmem)
  have hfirst : first ∈ cpuPins.filter (onPreferred topo) := by
    rw [hfront]
    exact List.mem_cons_self
  refine ⟨first, ?_, (List.mem_filter.1 hfirst).2⟩
  rw [basePins, if_pos rfl, preferredFirst_of_lt hlt, hfront]
  rfl

end Preferred

section Pair

/-- Exception A on a list of at least two pins: the sibling of the first pin
comes second, by insertion or by a swap. -/
theorem siblingSecond_cases (topo : Topology) (first second : ℕ)
    (rest : List ℕ) :
    (siblingSecond topo (first :: second :: rest) =
        first :: second :: rest ∧
      ∀ sib, ¬RecordedSibling topo first sib) ∨
    ∃ sib, RecordedSibling topo first sib ∧
      ((sib ∉ first :: second :: rest ∧
          siblingSecond topo (first :: second :: rest) =
            first :: sib :: second :: rest) ∨
        ∃ tail, siblingSecond topo (first :: second :: rest) =
            first :: sib :: tail ∧
          (first :: sib :: tail).Perm (first :: second :: rest)) := by
  have hhead : (first :: second :: rest).headD uint32Max = first := rfl
  unfold siblingSecond
  simp only [hhead]
  split
  next hlt =>
    have hentry : topo.smtSiblingOfCpu[first]? =
        some (topo.smtSiblingOfCpu.getD first uint32Max) := by
      rw [List.getD_eq_getElem _ _ hlt, List.getElem?_eq_getElem hlt]
    generalize topo.smtSiblingOfCpu.getD first uint32Max = sib at hentry
    split
    next hrecorded =>
      have hsibling : RecordedSibling topo first sib :=
        ⟨hentry, hrecorded.1, hrecorded.2⟩
      refine Or.inr ⟨sib, hsibling, ?_⟩
      split
      next hfresh => exact Or.inl ⟨hfresh, rfl⟩
      next hpinned =>
        have hmem : sib ∈ first :: second :: rest := not_not.1 hpinned
        refine Or.inr ?_
        by_cases hsecond : second = sib
        · subst hsecond
          refine ⟨rest, ?_, .refl _⟩
          rw [List.idxOf_cons_ne _ hrecorded.2.symm, List.idxOf_cons_self]
          rfl
        · have hplace : (first :: second :: rest).idxOf sib =
              rest.idxOf sib + 2 := by
            rw [List.idxOf_cons_ne _ hrecorded.2.symm,
              List.idxOf_cons_ne _ hsecond]
          have hlt : rest.idxOf sib + 2 < (first :: second :: rest).length := by
            rw [← hplace]
            exact List.idxOf_lt_length_of_mem hmem
          have hat : (first :: second :: rest)[rest.idxOf sib + 2] = sib := by
            simp only [← hplace]
            exact List.getElem_idxOf _
          have hswap : (((first :: second :: rest).set 1
              (first :: second :: rest)[rest.idxOf sib + 2]).set
                (rest.idxOf sib + 2) (first :: second :: rest)[1]).Perm
              (first :: second :: rest) := List.set_set_perm (by simp) hlt
          rw [hat] at hswap
          refine ⟨rest.set (rest.idxOf sib) second, ?_, hswap⟩
          rw [hplace]
          rfl
    next hnone =>
      refine Or.inl ⟨rfl, ?_⟩
      rintro other ⟨hother, hmax, hself⟩
      rw [hentry] at hother
      obtain rfl := Option.some.inj hother
      exact hnone ⟨hmax, hself⟩
  next hout =>
    refine Or.inl ⟨rfl, ?_⟩
    rintro other ⟨hother, _⟩
    rw [List.getElem?_eq_none (Nat.le_of_not_lt hout)] at hother
    cases hother

end Pair

section Reservation

variable {topo : Topology} {standalone : Bool} {cpuPins : List ℕ}
  {participants : ℕ}

theorem reserveProducerCpuFirst_eq (hlength : 2 ≤ cpuPins.length) :
    reserveProducerCpuFirst topo standalone cpuPins participants =
      let pins := basePins topo standalone cpuPins
      if participants = 2 ∧ topo.smtSiblingOfCpu ≠ [] then
        siblingSecond topo pins
      else if pins.length < participants ∧ topo.smtSiblingOfCpu ≠ [] then
        appendSiblings topo pins
      else pins := by
  rw [reserveProducerCpuFirst, if_neg (by omega)]
  rfl

/-- Pins that nothing was done to. -/
theorem reserved_base (hlt : topo.preferredCcd < topo.ccdGroups.length)
    (hnodup : cpuPins.Nodup)
    (hnone : participants = 2 → topo.smtSiblingOfCpu = []) :
    Reserved topo standalone cpuPins participants
      (basePins topo standalone cpuPins) := by
  have hperm := basePins_perm hlt standalone cpuPins
  refine ⟨hperm.nodup_iff.2 hnodup, hperm.symm.subset, ?_, ?_, ?_, ?_⟩
  · intro cpu hcpu hnot
    exact absurd (hperm.mem_iff.1 hcpu) hnot
  · rintro rfl hsome
    exact head_basePins hlt hsome
  · rintro htwo first sib _ ⟨hsib, _⟩
    rw [hnone htwo] at hsib
    cases hsib
  · intro _
    exact ⟨_, [], (List.append_nil _).symm, filter_basePins hlt _ _⟩

/-- A pool with more participants than pins. -/
theorem reserved_appended (hlt : topo.preferredCcd < topo.ccdGroups.length)
    (hnodup : cpuPins.Nodup) (hpos : 0 < cpuPins.length)
    (htwo : participants ≠ 2) :
    Reserved topo standalone cpuPins participants
      (appendSiblings topo (basePins topo standalone cpuPins)) := by
  have hperm := basePins_perm hlt standalone cpuPins
  obtain ⟨⟨siblings, hpins, hsiblings⟩, hdistinct⟩ :=
    @appendSiblings_appended topo _ (hperm.nodup_iff.2 hnodup)
  rw [hpins] at hdistinct ⊢
  have happart := (List.nodup_append.1 hdistinct).2.2
  refine ⟨hdistinct, ?_, ?_, ?_, fun heq => absurd heq htwo, ?_⟩
  · exact fun cpu hcpu =>
      List.mem_append.2 (Or.inl (hperm.mem_iff.2 hcpu))
  · intro cpu hcpu hnot
    rcases List.mem_append.1 hcpu with hbase | hsib
    · exact absurd (hperm.mem_iff.1 hbase) hnot
    obtain ⟨hmax, pin, hpin, hrecorded⟩ := hsiblings cpu hsib
    refine ⟨pin, hperm.mem_iff.1 hpin, ?_, hmax,
      fun heq => happart pin hpin cpu hsib heq.symm⟩
    have hinside : pin < topo.smtSiblingOfCpu.length := by
      by_contra hout
      rw [List.getD_eq_default _ _ (Nat.le_of_not_lt hout)] at hrecorded
      exact hmax hrecorded.symm
    rw [List.getD_eq_getElem _ _ hinside] at hrecorded
    rw [List.getElem?_eq_getElem hinside, hrecorded]
  · rintro rfl hsome
    obtain ⟨first, hfirst, hon⟩ := head_basePins hlt hsome
    refine ⟨first, ?_, hon⟩
    rw [List.getElem?_append_left (by rw [hperm.length_eq]; exact hpos)]
    exact hfirst
  · intro _
    exact ⟨_, siblings, rfl, filter_basePins hlt _ _⟩

/-- A pool of two. -/
theorem reserved_pair (hlt : topo.preferredCcd < topo.ccdGroups.length)
    (hnodup : cpuPins.Nodup) (hlength : 2 ≤ cpuPins.length) :
    Reserved topo standalone cpuPins 2
      (siblingSecond topo (basePins topo standalone cpuPins)) := by
  have hperm := basePins_perm hlt standalone cpuPins
  have hbase : 2 ≤ (basePins topo standalone cpuPins).length := by
    rw [hperm.length_eq]
    exact hlength
  have hhead : standalone = true →
      (∃ cpu ∈ cpuPins, onPreferred topo cpu = true) →
      ∃ first, (basePins topo standalone cpuPins)[0]? = some first ∧
        onPreferred topo first = true := by
    rintro rfl hsome
    exact head_basePins hlt hsome
  generalize basePins topo standalone cpuPins = pins at hperm hbase hhead ⊢
  obtain ⟨first, second, rest, rfl⟩ : ∃ first second rest,
      pins = first :: second :: rest := by
    rcases pins with _ | ⟨first, _ | ⟨second, rest⟩⟩
    · simp at hbase
    · simp at hbase
    · exact ⟨first, second, rest, rfl⟩
  have hdistinct := hperm.nodup_iff.2 hnodup
  rcases siblingSecond_cases topo first second rest with
    ⟨hsame, hnone⟩ | ⟨sib, hsibling, ⟨hfresh, hinserted⟩ | ⟨tail, hswapped, hmoved⟩⟩
  · rw [hsame]
    refine ⟨hdistinct, hperm.symm.subset, ?_, hhead, ?_,
      fun hne => absurd rfl hne⟩
    · intro cpu hcpu hnot
      exact absurd (hperm.mem_iff.1 hcpu) hnot
    · rintro _ start sib hstart hsibling
      obtain rfl := Option.some.inj hstart
      exact absurd hsibling (hnone sib)
  · rw [hinserted]
    have hshape : (first :: sib :: second :: rest).Perm
        (sib :: first :: second :: rest) := .swap _ _ _
    refine ⟨?_, ?_, ?_, hhead, ?_, fun hne => absurd rfl hne⟩
    · exact hshape.nodup_iff.2 (List.nodup_cons.2 ⟨hfresh, hdistinct⟩)
    · exact fun cpu hcpu => hshape.mem_iff.2
        (List.mem_cons_of_mem _ (hperm.mem_iff.2 hcpu))
    · intro cpu hcpu hnot
      rcases List.mem_cons.1 (hshape.mem_iff.1 hcpu) with rfl | hold
      · exact ⟨first, hperm.mem_iff.1 List.mem_cons_self, hsibling⟩
      · exact absurd (hperm.mem_iff.1 hold) hnot
    · rintro _ start other hstart hother
      obtain rfl := Option.some.inj hstart
      rw [← hother.1, hsibling.1]
      rfl
  · rw [hswapped]
    have hall := hmoved.trans hperm
    refine ⟨hall.nodup_iff.2 hnodup, hall.symm.subset, ?_, hhead, ?_,
      fun hne => absurd rfl hne⟩
    · intro cpu hcpu hnot
      exact absurd (hall.mem_iff.1 hcpu) hnot
    · rintro _ start other hstart hother
      obtain rfl := Option.some.inj hstart
      rw [← hother.1, hsibling.1]
      rfl

/-- The reservation keeps every pin, once, and orders them as documented. -/
theorem reserveProducerCpuFirst_reserved
    (hlt : topo.preferredCcd < topo.ccdGroups.length)
    (hnodup : cpuPins.Nodup) (hlength : 2 ≤ cpuPins.length) :
    Reserved topo standalone cpuPins participants
      (reserveProducerCpuFirst topo standalone cpuPins participants) := by
  rw [reserveProducerCpuFirst_eq hlength]
  dsimp only
  split
  next hpair =>
    obtain ⟨rfl, _⟩ := hpair
    exact reserved_pair hlt hnodup hlength
  next hpair =>
    split
    next hmore =>
      refine reserved_appended hlt hnodup (by omega) fun htwo => ?_
      exact hpair ⟨htwo, hmore.2⟩
    next =>
      refine reserved_base hlt hnodup fun htwo => ?_
      by_contra hne
      exact hpair ⟨htwo, hne⟩

/-- Two CCDs with two SMT cores each, the second one preferred. -/
def twoCcds : Topology where
  physicalCores := [0, 2, 4, 6]
  ccdGroups := [[0, 2], [4, 6]]
  ccdOfCpu := [0, 0, 0, 0, 1, 0, 1, 0]
  preferredCcd := 1
  physicalCount := 4
  smtSiblingOfCpu := [1, 0, 3, 2, 5, 4, 7, 6]

theorem twoCcds_reserved :
    Reserved twoCcds true [0, 2, 4, 6] 2
      (reserveProducerCpuFirst twoCcds true [0, 2, 4, 6] 2) :=
  reserveProducerCpuFirst_reserved (by decide) (by decide) (by decide)

end Reservation

end Citor.PinReservation
