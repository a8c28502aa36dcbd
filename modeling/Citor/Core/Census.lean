import Mathlib

/-!
# Counting what the parties hold

Each of finitely many parties holds a list of items.  A weighted census adds
up the weights of everything held; it changes by what one party gives up and
what it takes.
-/

namespace Citor.Census

variable {α : Type*}

/-- The weight of one party's list. -/
def weigh (weight : α → ℕ) (items : List α) : ℕ :=
  (items.map weight).sum

@[simp] theorem weigh_nil (weight : α → ℕ) : weigh weight [] = 0 := rfl

@[simp] theorem weigh_cons (weight : α → ℕ) (item : α) (items : List α) :
    weigh weight (item :: items) = weight item + weigh weight items := by
  simp [weigh]

@[simp] theorem weigh_append (weight : α → ℕ) (front back : List α) :
    weigh weight (front ++ back) = weigh weight front + weigh weight back := by
  simp [weigh]

theorem weigh_perm (weight : α → ℕ) {front back : List α}
    (hperm : front.Perm back) : weigh weight front = weigh weight back :=
  (hperm.map weight).sum_eq

theorem le_weigh (weight : α → ℕ) {item : α} {items : List α}
    (hitem : item ∈ items) : weight item ≤ weigh weight items :=
  List.single_le_sum (by simp) _ (List.mem_map_of_mem hitem)

/-- The weight of everything the parties below `parties` hold. -/
def census (parties : ℕ) (weight : α → ℕ) (held : ℕ → List α) : ℕ :=
  ∑ party ∈ Finset.range parties, weigh weight (held party)

/-- One party's list is replaced. -/
theorem census_update {parties party : ℕ} (hparty : party < parties)
    (weight : α → ℕ) (held : ℕ → List α) (items : List α) :
    census parties weight (Function.update held party items) +
        weigh weight (held party) =
      census parties weight held + weigh weight items := by
  have hmem : party ∈ Finset.range parties := Finset.mem_range.2 hparty
  have hothers : ∑ other ∈ (Finset.range parties).erase party,
        weigh weight (Function.update held party items other) =
      ∑ other ∈ (Finset.range parties).erase party,
        weigh weight (held other) := by
    refine Finset.sum_congr rfl fun other hother => ?_
    rw [Function.update_of_ne (Finset.ne_of_mem_erase hother)]
  rw [census, census, ← Finset.add_sum_erase _ _ hmem,
    ← Finset.add_sum_erase _ _ hmem, hothers, Function.update_self]
  omega

theorem le_census {parties party : ℕ} (hparty : party < parties)
    (weight : α → ℕ) {held : ℕ → List α} {item : α}
    (hitem : item ∈ held party) : weight item ≤ census parties weight held := by
  have hlist : weigh weight (held party) ≤ census parties weight held := by
    rw [census, ← Finset.add_sum_erase _ _ (Finset.mem_range.2 hparty)]
    exact Nat.le_add_right _ _
  exact (le_weigh weight hitem).trans hlist

/-- Something heavy is held by somebody. -/
theorem exists_of_census_pos {parties : ℕ} {weight : α → ℕ}
    {held : ℕ → List α} (hpos : 0 < census parties weight held) :
    ∃ party < parties, ∃ item ∈ held party, 0 < weight item := by
  obtain ⟨party, hparty, hlist⟩ := Finset.sum_pos_iff.1 hpos
  refine ⟨party, Finset.mem_range.1 hparty, ?_⟩
  by_contra hnone
  push Not at hnone
  have hzero : weigh weight (held party) = 0 := by
    refine List.sum_eq_zero fun value hvalue => ?_
    obtain ⟨item, hitem, rfl⟩ := List.mem_map.1 hvalue
    exact Nat.le_zero.1 (hnone item hitem)
  omega

theorem census_add (parties : ℕ) (first second : α → ℕ)
    (held : ℕ → List α) :
    census parties (fun item => first item + second item) held =
      census parties first held + census parties second held := by
  rw [census, census, census, ← Finset.sum_add_distrib]
  refine Finset.sum_congr rfl fun party _ => ?_
  induction held party with
  | nil => rfl
  | cons item items ih => simp only [weigh_cons, ih]; omega

theorem weigh_mono {light heavy : α → ℕ} (hle : ∀ item, light item ≤ heavy item)
    (items : List α) : weigh light items ≤ weigh heavy items := by
  induction items with
  | nil => exact le_rfl
  | cons item items ih =>
      have := hle item
      simp only [weigh_cons]
      omega

theorem census_mono (parties : ℕ) {light heavy : α → ℕ}
    (hle : ∀ item, light item ≤ heavy item) (held : ℕ → List α) :
    census parties light held ≤ census parties heavy held :=
  Finset.sum_le_sum fun party _ => weigh_mono hle (held party)

@[simp] theorem census_zero (parties : ℕ) (held : ℕ → List α) :
    census parties (fun _ => 0) held = 0 := by
  simp [census, weigh]

/-- A lighter weight stays lighter when one held item is left out on both
sides. -/
theorem census_le_of_le {parties party : ℕ} (hparty : party < parties)
    {light heavy : α → ℕ} (hle : ∀ item, light item ≤ heavy item)
    {held : ℕ → List α} {item : α} (hitem : item ∈ held party) :
    census parties light held + heavy item ≤
      census parties heavy held + light item := by
  have hsplit : census parties heavy held = census parties light held +
      census parties (fun other => heavy other - light other) held := by
    rw [← census_add]
    refine congrArg (census parties · held) (funext fun other => ?_)
    have := hle other
    omega
  have := le_census hparty (fun other => heavy other - light other) hitem
  have := hle item
  omega

/-! ## Changing one item of a list in place -/

/-- What a position holds after one item changed. -/
theorem getElem?_modify_cases {items : List α} {index position : ℕ}
    {change : α → α} {item other : α} (hitem : items[index]? = some item)
    (hother : (items.modify index change)[position]? = some other) :
    position = index ∧ other = change item ∨
      position ≠ index ∧ items[position]? = some other := by
  by_cases hindex : index = position
  · subst hindex
    simp only [List.getElem?_modify_eq, hitem, Option.map_eq_map,
      Option.map_some, Option.some.injEq] at hother
    exact .inl ⟨rfl, hother.symm⟩
  · rw [List.getElem?_modify_ne _ _ hindex] at hother
    exact .inr ⟨Ne.symm hindex, hother⟩

theorem mem_modify {items : List α} {index : ℕ} {change : α → α}
    {item other : α} (hitem : items[index]? = some item)
    (hmem : other ∈ items.modify index change) :
    other = change item ∨ other ∈ items := by
  obtain ⟨position, hposition⟩ := List.mem_iff_getElem?.1 hmem
  rcases getElem?_modify_cases hitem hposition with ⟨-, heq⟩ | ⟨-, hkept⟩
  · exact .inl heq
  · exact .inr (List.mem_iff_getElem?.2 ⟨position, hkept⟩)

theorem toNat_le_countP (test : α → Bool) {items : List α} {index : ℕ}
    {item : α} (hitem : items[index]? = some item) :
    (test item).toNat ≤ items.countP test := by
  cases htest : test item with
  | false => exact Nat.zero_le _
  | true =>
      have hmem := List.mem_iff_getElem?.2 ⟨index, hitem⟩
      exact List.countP_pos_iff.2 ⟨item, hmem, htest⟩

/-- The items that pass a test, before and after the change. -/
theorem countP_modify (test : α → Bool) (change : α → α)
    {items : List α} {index : ℕ} {item : α}
    (hitem : items[index]? = some item) :
    (items.modify index change).countP test + (test item).toNat =
      items.countP test + (test (change item)).toNat := by
  induction items generalizing index with
  | nil => simp at hitem
  | cons head items ih =>
      cases index with
      | zero =>
          obtain rfl : head = item := by simpa using hitem
          simp only [List.modify_zero_cons, List.countP_cons]
          cases test head <;> cases test (change head) <;> simp
      | succ index =>
          have hrest := ih (by simpa using hitem)
          simp only [List.modify_succ_cons, List.countP_cons]
          omega

/-! ## Counting one item -/

section Single

variable [DecidableEq α]

/-- The weight that counts one item. -/
def single (item : α) : α → ℕ :=
  fun other => if other = item then 1 else 0

theorem weigh_single (item : α) (items : List α) :
    weigh (single item) items = items.count item := by
  induction items with
  | nil => rfl
  | cons head items ih =>
      rw [weigh_cons, ih, List.count_cons, Nat.add_comm]
      simp [single]

/-- An item that exactly one party holds, once, is counted once. -/
theorem census_single_eq_one {parties owner : ℕ} (howner : owner < parties)
    {held : ℕ → List α} {item : α} (hnodup : (held owner).Nodup)
    (hmem : ∀ party < parties, item ∈ held party ↔ party = owner) :
    census parties (single item) held = 1 := by
  rw [census, Finset.sum_eq_single owner]
  · rw [weigh_single]
    exact List.count_eq_one_of_mem hnodup ((hmem owner howner).2 rfl)
  · intro party hparty hne
    rw [weigh_single]
    refine List.count_eq_zero_of_not_mem fun hheld => hne ?_
    exact (hmem party (Finset.mem_range.1 hparty)).1 hheld
  · intro hout
    exact absurd (Finset.mem_range.2 howner) hout

/-- An item that nobody holds is counted zero times. -/
theorem census_single_eq_zero {parties : ℕ} {held : ℕ → List α} {item : α}
    (hmem : ∀ party < parties, item ∉ held party) :
    census parties (single item) held = 0 := by
  refine Finset.sum_eq_zero fun party hparty => ?_
  rw [weigh_single]
  exact List.count_eq_zero_of_not_mem (hmem party (Finset.mem_range.1 hparty))

end Single

/-! ## Parties that hold one item each -/

section Tally

variable {α : Type*} {parties party : ℕ} {weight : α → ℕ} {place : ℕ → α}

/-- The weight of what the parties below `parties` hold, one item each. -/
def tally (parties : ℕ) (weight : α → ℕ) (place : ℕ → α) : ℕ :=
  ∑ party ∈ Finset.range parties, weight (place party)

theorem tally_split (hparty : party < parties) :
    tally parties weight place = weight (place party) +
      ∑ other ∈ (Finset.range parties).erase party, weight (place other) :=
  (Finset.add_sum_erase _ _ (Finset.mem_range.2 hparty)).symm

/-- One party's item is replaced. -/
theorem tally_update (hparty : party < parties) (weight : α → ℕ)
    (place : ℕ → α) (item : α) :
    tally parties weight (Function.update place party item) +
        weight (place party) =
      tally parties weight place + weight item := by
  have hothers : ∑ other ∈ (Finset.range parties).erase party,
        weight (Function.update place party item other) =
      ∑ other ∈ (Finset.range parties).erase party, weight (place other) := by
    refine Finset.sum_congr rfl fun other hother => ?_
    rw [Function.update_of_ne (Finset.ne_of_mem_erase hother)]
  rw [tally_split hparty, tally_split hparty, hothers, Function.update_self]
  omega

theorem le_tally (hparty : party < parties) :
    weight (place party) ≤ tally parties weight place := by
  rw [tally_split hparty]
  exact Nat.le_add_right _ _

theorem exists_of_tally_pos (hpos : tally parties weight place ≠ 0) :
    ∃ party < parties, weight (place party) ≠ 0 := by
  obtain ⟨party, hparty, hweight⟩ := Finset.exists_ne_zero_of_sum_ne_zero hpos
  exact ⟨party, Finset.mem_range.1 hparty, hweight⟩

theorem tally_eq_zero (hzero : ∀ party < parties, weight (place party) = 0) :
    tally parties weight place = 0 :=
  Finset.sum_eq_zero fun party hparty => hzero party (Finset.mem_range.1 hparty)

end Tally

end Citor.Census
