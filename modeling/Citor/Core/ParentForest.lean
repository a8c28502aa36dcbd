import Mathlib

/-!
# Forests of parent pointers

A list of parents is a forest when every chain of parents ends in a root.
The root of every element is carried along as a function, so path halving is a
write that keeps it and linking two roots is a write that merges two of its
fibres.
-/

namespace Citor.ParentForest

/-- A height that drops along every parent pointer. -/
def Climbs (n : ℕ) (parent : List ℕ) (height : ℕ → ℕ) : Prop :=
  ∀ x < n, parent.getD x x ≠ x → height (parent.getD x x) < height x

/-- The parents below `n` form a forest with these roots. -/
structure Forest (n : ℕ) (parent : List ℕ) (root : ℕ → ℕ) : Prop where
  length_eq : parent.length = n
  parent_lt : ∀ x < n, parent.getD x x < n
  root_lt : ∀ x < n, root x < n
  root_fixed : ∀ x < n, parent.getD (root x) (root x) = root x
  root_parent : ∀ x < n, root (parent.getD x x) = root x
  root_self : ∀ x < n, parent.getD x x = x → root x = x
  climbs : ∃ height, Climbs n parent height

theorem getD_set_self {parent : List ℕ} {x : ℕ} (hx : x < parent.length)
    (value : ℕ) : (parent.set x value).getD x x = value := by
  rw [List.getD_eq_getElem?_getD, List.getElem?_set_self hx, Option.getD_some]

theorem getD_set_ne {parent : List ℕ} {x y : ℕ} (hne : y ≠ x) (value : ℕ) :
    (parent.set x value).getD y y = parent.getD y y := by
  rw [List.getD_eq_getElem?_getD, List.getElem?_set_ne hne.symm,
    ← List.getD_eq_getElem?_getD]

/-- Everyone is a root. -/
theorem Forest.range (n : ℕ) : Forest n (List.range n) id := by
  have hself : ∀ x < n, (List.range n).getD x x = x := fun x hx => by
    rw [List.getD_eq_getElem _ _ (by simpa using hx), List.getElem_range]
  refine ⟨List.length_range, ?_, fun x hx => hx, hself, ?_, fun x _ _ => rfl,
    ⟨id, ?_⟩⟩
  · intro x hx
    rw [hself x hx]
    exact hx
  · intro x hx
    exact hself x hx
  · intro x hx hne
    exact absurd (hself x hx) hne

variable {n : ℕ} {parent : List ℕ} {root : ℕ → ℕ}

theorem Forest.root_root (hforest : Forest n parent root) {x : ℕ}
    (hx : x < n) : root (root x) = root x :=
  hforest.root_self _ (hforest.root_lt x hx) (hforest.root_fixed x hx)

/-- The heights may be taken below the number of elements. -/
theorem Forest.exists_height (hforest : Forest n parent root) :
    ∃ height : ℕ → ℕ, (∀ x < n, height x < n) ∧ Climbs n parent height := by
  obtain ⟨height, hheight⟩ := hforest.climbs
  refine ⟨fun x => ((Finset.range n).filter fun y => height y < height x).card,
    ?_, ?_⟩
  · intro x hx
    calc ((Finset.range n).filter fun y => height y < height x).card
        < (Finset.range n).card := Finset.card_lt_card <|
          Finset.filter_ssubset.2 ⟨x, Finset.mem_range.2 hx, lt_irrefl _⟩
      _ = n := Finset.card_range n
  · intro x hx hne
    have hless := hheight x hx hne
    refine Finset.card_lt_card ?_
    rw [Finset.ssubset_iff_of_subset]
    · refine ⟨parent.getD x x, ?_, ?_⟩
      · simpa using ⟨hforest.parent_lt x hx, hless⟩
      · simp
    · intro y hy
      rw [Finset.mem_filter] at hy ⊢
      exact ⟨hy.1, hy.2.trans hless⟩

/-- The grandparent, as the code reads it. -/
theorem Forest.grandparent_eq (hforest : Forest n parent root) {x : ℕ}
    (hx : x < n) :
    parent.getD (parent.getD x x) x =
      parent.getD (parent.getD x x) (parent.getD x x) := by
  have hlt : parent.getD x x < parent.length := by
    rw [hforest.length_eq]
    exact hforest.parent_lt x hx
  rw [List.getD_eq_getElem _ _ hlt, List.getD_eq_getElem _ _ hlt]

/-- The grandparent of an element that is no root is below it. -/
theorem Forest.grandparent_lt (hforest : Forest n parent root)
    {height : ℕ → ℕ} (hclimbs : Climbs n parent height) {x : ℕ} (hx : x < n)
    (hnot : parent.getD x x ≠ x) :
    height (parent.getD (parent.getD x x) (parent.getD x x)) < height x := by
  have hfirst := hclimbs x hx hnot
  by_cases hstop : parent.getD (parent.getD x x) (parent.getD x x) =
      parent.getD x x
  · rw [hstop]
    exact hfirst
  · exact (hclimbs _ (hforest.parent_lt x hx) hstop).trans hfirst

theorem Forest.climbs_halve (hforest : Forest n parent root)
    {height : ℕ → ℕ} (hclimbs : Climbs n parent height) {x : ℕ} (hx : x < n) :
    Climbs n (parent.set x (parent.getD (parent.getD x x) x)) height := by
  intro y hy hne
  rw [hforest.grandparent_eq hx] at hne ⊢
  by_cases hyx : y = x
  · subst hyx
    rw [getD_set_self (by rw [hforest.length_eq]; exact hx)] at hne ⊢
    refine hforest.grandparent_lt hclimbs hx fun hfixed => ?_
    rw [hfixed, hfixed] at hne
    exact hne rfl
  · rw [getD_set_ne hyx] at hne ⊢
    exact hclimbs y hy hne

/-- Path halving: an element is hung under its grandparent. -/
theorem Forest.halve (hforest : Forest n parent root) {x : ℕ} (hx : x < n) :
    Forest n (parent.set x (parent.getD (parent.getD x x) x)) root := by
  have hparent := hforest.parent_lt x hx
  obtain ⟨height, hheight⟩ := hforest.climbs
  have hclimbs := hforest.climbs_halve hheight hx
  rw [hforest.grandparent_eq hx] at hclimbs ⊢
  have hself := getD_set_self (by rw [hforest.length_eq]; exact hx)
    (parent.getD (parent.getD x x) (parent.getD x x))
  refine ⟨by rw [List.length_set, hforest.length_eq], ?_, hforest.root_lt,
    ?_, ?_, ?_, ⟨height, hclimbs⟩⟩
  · intro y hy
    by_cases hyx : y = x
    · subst hyx
      rw [hself]
      exact hforest.parent_lt _ hparent
    · rw [getD_set_ne hyx]
      exact hforest.parent_lt y hy
  · intro y hy
    by_cases hyx : root y = x
    · rw [hyx, hself]
      have hfixed : parent.getD x x = x := hyx ▸ hforest.root_fixed y hy
      rw [hfixed, hfixed]
    · rw [getD_set_ne hyx]
      exact hforest.root_fixed y hy
  · intro y hy
    by_cases hyx : y = x
    · subst hyx
      rw [hself, hforest.root_parent _ hparent, hforest.root_parent y hy]
    · rw [getD_set_ne hyx]
      exact hforest.root_parent y hy
  · intro y hy hfixed
    by_cases hyx : y = x
    · subst hyx
      rw [hself] at hfixed
      refine hforest.root_self y hy ?_
      by_contra hnot
      have hless := hforest.grandparent_lt hheight hy hnot
      rw [hfixed] at hless
      exact lt_irrefl _ hless
    · rw [getD_set_ne hyx] at hfixed
      exact hforest.root_self y hy hfixed

/-- Hanging the root `a` under the root `b`. -/
theorem Forest.link (hforest : Forest n parent root) {a b : ℕ} (ha : a < n)
    (hb : b < n) (hroota : root a = a) (hrootb : root b = b) (hne : a ≠ b) :
    Forest n (parent.set a b) (fun x => if root x = a then b else root x) := by
  have hself := getD_set_self (by rw [hforest.length_eq]; exact ha) b
  have hfixedb : parent.getD b b = b := by
    simpa [hrootb] using hforest.root_fixed b hb
  have hbelow : (parent.set a b).getD b b = b := by
    rw [getD_set_ne hne.symm, hfixedb]
  refine ⟨by rw [List.length_set, hforest.length_eq], ?_, ?_, ?_, ?_, ?_, ?_⟩
  · intro x hx
    by_cases hxa : x = a
    · subst hxa
      rw [hself]
      exact hb
    · rw [getD_set_ne hxa]
      exact hforest.parent_lt x hx
  · intro x hx
    split
    · exact hb
    · exact hforest.root_lt x hx
  · intro x hx
    split
    · exact hbelow
    next hother =>
      rw [getD_set_ne hother]
      exact hforest.root_fixed x hx
  · intro x hx
    by_cases hxa : x = a
    · subst hxa
      rw [hself]
      simp [hrootb, hroota, hne.symm]
    · rw [getD_set_ne hxa]
      simp only [hforest.root_parent x hx]
  · intro x hx hfixed
    by_cases hxa : x = a
    · subst hxa
      rw [hself] at hfixed
      exact absurd hfixed.symm hne
    · rw [getD_set_ne hxa] at hfixed
      have hroot := hforest.root_self x hx hfixed
      simp [hroot, hxa]
  · obtain ⟨height, hheight⟩ := hforest.climbs
    refine ⟨fun x => if root x = a then height x + height b + 1 else height x,
      fun x hx hnot => ?_⟩
    by_cases hxa : x = a
    · subst hxa
      rw [hself]
      simp only [hrootb, hne.symm, if_false, hroota, if_true]
      omega
    · rw [getD_set_ne hxa] at hnot ⊢
      have hless := hheight x hx hnot
      simp only [hforest.root_parent x hx]
      split <;> omega

end Citor.ParentForest
