import Citor.Core.ParentForest
import Citor.Topology.LatencyClustering

/-!
# The union-find branch computes connected components

Path halving ends in every forest the branch can build.  After all fast edges
two CPUs have the same root exactly if fast edges connect them, and the
compaction numbers the roots in the order in which their CPUs appear.
-/

namespace Citor.LatencyComponents

open Citor.CoherenceProbe
open Citor.LatencyClustering
open Citor.ParentForest

/-! ## What the clusters should be -/

/-- Two CPUs with a fast edge between them. -/
def FastEdge (n : ℕ) (fast : ℕ → ℕ → Bool) (i j : ℕ) : Prop :=
  i < n ∧ j < n ∧ i ≠ j ∧ fast i j = true

/-- Fast edges lead from one CPU to the other. -/
def Connected (n : ℕ) (fast : ℕ → ℕ → Bool) : ℕ → ℕ → Prop :=
  Relation.EqvGen (FastEdge n fast)

/-- The ids are `0, …, count - 1`, numbered as they appear. -/
structure Dense (ids : List ℕ) (count : ℕ) : Prop where
  mem_iff : ∀ cluster, cluster ∈ ids ↔ cluster < count
  in_order : ∀ earlier later, earlier < later → later < count →
    ids.idxOf earlier < ids.idxOf later

/-- The ids of `n` CPUs are their connected components. -/
structure Components (n : ℕ) (fast : ℕ → ℕ → Bool) (ids : List ℕ)
    (count : ℕ) : Prop where
  length_eq : ids.length = n
  same_iff : ∀ i < n, ∀ j < n, ids[i]? = ids[j]? ↔ Connected n fast i j
  dense : Dense ids count

/-- The parents that `find` and `unite` can produce, write by write. -/
inductive Reachable (n : ℕ) : List ℕ → Prop
  | start : Reachable n (List.range n)
  | halve {parent x} : Reachable n parent → x < n →
      Reachable n (parent.set x (parent.getD (parent.getD x x) x))
  | link {parent a b} : Reachable n parent → a < n → b < n →
      parent.getD a a = a → parent.getD b b = b → a ≠ b →
      Reachable n (parent.set a b)

theorem Reachable.exists_forest {n : ℕ} {parent : List ℕ}
    (hreach : Reachable n parent) : ∃ root, Forest n parent root := by
  induction hreach with
  | start => exact ⟨id, Forest.range n⟩
  | halve _ hx ih =>
      obtain ⟨root, hforest⟩ := ih
      exact ⟨root, hforest.halve hx⟩
  | link _ ha hb hfixa hfixb hne ih =>
      obtain ⟨root, hforest⟩ := ih
      exact ⟨_, hforest.link ha hb (hforest.root_self _ ha hfixa)
        (hforest.root_self _ hb hfixb) hne⟩

/-! ## Find and unite -/

section UnionFind

variable {n : ℕ} {parent : List ℕ} {root : ℕ → ℕ}

/-- The loop climbs to the root as long as the fuel covers the height. -/
theorem find_of_height {height : ℕ → ℕ} {fuel : ℕ}
    (hforest : Forest n parent root) (hclimbs : Climbs n parent height)
    {x : ℕ} (hx : x < n) (hfuel : height x < fuel) :
    ∃ after, find fuel parent x = some (after, root x) ∧
      Forest n after root := by
  induction fuel generalizing parent x with
  | zero => omega
  | succ fuel ih =>
      unfold find
      split
      next hfixed =>
        rw [hforest.root_self x hx hfixed]
        exact ⟨parent, rfl, hforest⟩
      next hmoves =>
        have hbelow := hforest.grandparent_lt hclimbs hx hmoves
        have hparent := hforest.parent_lt x hx
        have hgrand : (parent.set x (parent.getD (parent.getD x x) x)).getD x x =
            parent.getD (parent.getD x x) (parent.getD x x) := by
          rw [getD_set_self (by rw [hforest.length_eq]; exact hx),
            hforest.grandparent_eq hx]
        have hroot : root (parent.getD (parent.getD x x) (parent.getD x x)) =
            root x := by
          rw [hforest.root_parent _ hparent, hforest.root_parent x hx]
        simp only [hgrand]
        rw [← hroot]
        exact ih (hforest.halve hx) (hforest.climbs_halve hclimbs hx)
          (hforest.parent_lt _ hparent) (by omega)

/-- `find` ends, returns the root and keeps every root. -/
theorem find_eq (hforest : Forest n parent root) {x : ℕ} (hx : x < n) :
    ∃ after, find (parent.length + 1) parent x = some (after, root x) ∧
      Forest n after root := by
  obtain ⟨height, hbound, hclimbs⟩ := hforest.exists_height
  refine find_of_height hforest hclimbs hx ?_
  rw [hforest.length_eq]
  exact (hbound x hx).trans (Nat.lt_succ_self n)

theorem unite_eq (hforest : Forest n parent root) {a b : ℕ} (ha : a < n)
    (hb : b < n) :
    ∃ after, unite parent a b = some after ∧
      Forest n after (fun x => if root x = root a then root b else root x) := by
  obtain ⟨first, hfirst, hforesta⟩ := find_eq hforest ha
  obtain ⟨second, hsecond, hforestb⟩ := find_eq hforesta hb
  rw [unite, hfirst]
  simp only [Option.bind_eq_bind, Option.bind_some]
  rw [hsecond]
  simp only [Option.bind_some, Option.pure_def, Option.some.injEq]
  refine ⟨_, rfl, ?_⟩
  split
  next hne =>
    exact hforestb.link (hforest.root_lt a ha) (hforest.root_lt b hb)
      (hforest.root_root ha) (hforest.root_root hb) hne
  next heq =>
    have hsame : (fun x => if root x = root a then root b else root x) =
        root := by
      funext x
      split
      next hx => rw [hx, not_not.1 heq]
      next => rfl
    rw [hsame]
    exact hforestb

end UnionFind

/-! ## Connecting -/

section Connect

variable {n : ℕ} {fast : ℕ → ℕ → Bool}

/-- The roots after some of the pairs. -/
structure Linked (n : ℕ) (fast : ℕ → ℕ → Bool) (done : List (ℕ × ℕ))
    (root : ℕ → ℕ) : Prop where
  sound : ∀ x < n, ∀ y < n, root x = root y → Connected n fast x y
  complete : ∀ pair ∈ done, fast pair.1 pair.2 = true →
    root pair.1 = root pair.2

theorem Linked.start : Linked n fast [] id :=
  ⟨fun x _ y _ heq => by obtain rfl : x = y := heq; exact .refl x,
    fun _ hpair => by cases hpair⟩

theorem Linked.skip {done : List (ℕ × ℕ)} {root : ℕ → ℕ} {pair : ℕ × ℕ}
    (hlinked : Linked n fast done root)
    (hslow : ¬fast pair.1 pair.2 = true) :
    Linked n fast (done ++ [pair]) root := by
  refine ⟨hlinked.sound, fun other hother hfast => ?_⟩
  rcases List.mem_append.1 hother with hold | hnew
  · exact hlinked.complete other hold hfast
  · obtain rfl := List.mem_singleton.1 hnew
    exact absurd hfast hslow

theorem Linked.unite {done : List (ℕ × ℕ)} {root : ℕ → ℕ} {i j : ℕ}
    (hlinked : Linked n fast done root) (hedge : FastEdge n fast i j) :
    Linked n fast (done ++ [(i, j)])
      (fun x => if root x = root i then root j else root x) := by
  have hjoin : Connected n fast i j := .rel i j hedge
  obtain ⟨hi, hj, _⟩ := hedge
  constructor
  · intro x hx y hy heq
    split at heq
    next hxi =>
      have hleft := (hlinked.sound x hx i hi hxi).trans _ _ _ hjoin
      split at heq
      next hyi =>
        exact hleft.trans _ _ _
          ((hlinked.sound y hy i hi hyi).trans _ _ _ hjoin).symm
      next =>
        exact hleft.trans _ _ _ (hlinked.sound j hj y hy heq)
    next =>
      split at heq
      next hyi =>
        exact (hlinked.sound x hx j hj heq).trans _ _ _
          ((hlinked.sound y hy i hi hyi).trans _ _ _ hjoin).symm
      next => exact hlinked.sound x hx y hy heq
  · intro pair hpair hfast
    rcases List.mem_append.1 hpair with hold | hnew
    · simp only [hlinked.complete pair hold hfast]
    · obtain rfl := List.mem_singleton.1 hnew
      simp

theorem connect_pairs (edges done : List (ℕ × ℕ)) {parent : List ℕ}
    {root : ℕ → ℕ}
    (hedges : ∀ pair ∈ edges, pair.1 < pair.2 ∧ pair.2 < n)
    (hforest : Forest n parent root) (hlinked : Linked n fast done root) :
    ∃ after rootAfter, edges.foldlM (fun parent (i, j) =>
        if fast i j then LatencyClustering.unite parent i j
        else some parent) parent = some after ∧
      Forest n after rootAfter ∧
      Linked n fast (done ++ edges) rootAfter := by
  induction edges generalizing done parent root with
  | nil => exact ⟨parent, root, rfl, hforest, by simpa using hlinked⟩
  | cons pair edges ih =>
      obtain ⟨i, j⟩ := pair
      obtain ⟨hless, hlt⟩ := hedges (i, j) List.mem_cons_self
      have hrest := fun other (hother : other ∈ edges) =>
        hedges other (List.mem_cons_of_mem _ hother)
      rw [List.foldlM_cons]
      have happend : done ++ (i, j) :: edges = (done ++ [(i, j)]) ++ edges := by
        simp
      rw [happend]
      by_cases hfast : fast i j = true
      · obtain ⟨after, hafter, hunited⟩ :=
          unite_eq hforest (hless.trans hlt) hlt
        simp only [hfast, if_true, hafter, Option.bind_eq_bind,
          Option.bind_some]
        exact ih _ hrest hunited (hlinked.unite
          ⟨hless.trans hlt, hlt, hless.ne, hfast⟩)
      · simp only [hfast, Bool.false_eq_true, if_false, Option.bind_eq_bind,
          Option.bind_some]
        exact ih _ hrest hforest (hlinked.skip hfast)

theorem mem_pairs {pair : ℕ × ℕ} :
    pair ∈ pairs n ↔ pair.1 < pair.2 ∧ pair.2 < n := by
  obtain ⟨i, j⟩ := pair
  simp only [pairs, List.mem_flatMap, List.mem_range, List.mem_map,
    List.mem_range'_1, Prod.mk.injEq]
  constructor
  · rintro ⟨i, hi, j, hj, rfl, rfl⟩
    omega
  · intro hpair
    exact ⟨i, by omega, j, by omega, rfl, rfl⟩

/-- The roots after all pairs are the connected components. -/
theorem connect_eq (hsymm : ∀ i < n, ∀ j < n, fast i j = fast j i) :
    ∃ parent root, connect n fast = some parent ∧ Forest n parent root ∧
      ∀ x < n, ∀ y < n, root x = root y ↔ Connected n fast x y := by
  obtain ⟨parent, root, hparent, hforest, hlinked⟩ :=
    connect_pairs (pairs n) [] (fun pair hpair => mem_pairs.1 hpair)
      (Forest.range n) Linked.start
  refine ⟨parent, root, hparent, hforest, fun x hx y hy =>
    ⟨hlinked.sound x hx y hy, fun hconnected => ?_⟩⟩
  have hedge : ∀ i j, FastEdge n fast i j → root i = root j := by
    rintro i j ⟨hi, hj, hne, hfast⟩
    rcases Nat.lt_or_gt_of_ne hne with hless | hless
    · exact hlinked.complete (i, j) (mem_pairs.2 ⟨hless, hj⟩) hfast
    · exact (hlinked.complete (j, i) (mem_pairs.2 ⟨hless, hi⟩)
        ((hsymm j hj i hi).trans hfast)).symm
  clear hx hy
  induction hconnected with
  | rel i j h => exact hedge i j h
  | refl i => rfl
  | symm i j _ ih => exact ih.symm
  | trans i j k _ _ ihij ihjk => exact ihij.trans ihjk

end Connect

/-! ## Compacting the roots -/

section Compact

variable {n : ℕ} {root : ℕ → ℕ}

/-- The ids of the first `done` CPUs. -/
structure Compacted (n : ℕ) (root : ℕ → ℕ) (done : ℕ) (state : Compaction) :
    Prop where
  forest : Forest n state.parent root
  length_eq : state.clusterId.length = done
  table_length : state.rootToCluster.length = n
  table_iff : ∀ r < n, ∀ cluster,
    state.rootToCluster.getD r none = some cluster ↔
      ∃ i < done, root i = r ∧ state.clusterId[i]? = some cluster
  separate : ∀ i < done, ∀ j < done, state.clusterId[i]? = state.clusterId[j]? →
    root i = root j
  dense : Dense state.clusterId state.next

theorem Compacted.start {parent : List ℕ} (hforest : Forest n parent root) :
    Compacted n root 0
      { parent, rootToCluster := List.replicate n none, next := 0,
        clusterId := [] } where
  forest := hforest
  length_eq := rfl
  table_length := List.length_replicate
  table_iff := by
    intro r hr cluster
    simp
  separate := by
    intro i hi
    omega
  dense := ⟨by simp, by simp⟩

theorem Dense.append_old {ids : List ℕ} {count cluster : ℕ}
    (hdense : Dense ids count) (hcluster : cluster ∈ ids) :
    Dense (ids ++ [cluster]) count := by
  constructor
  · intro other
    rw [List.mem_append, List.mem_singleton, ← hdense.mem_iff]
    exact or_iff_left_of_imp fun heq => heq ▸ hcluster
  · intro earlier later hless hlater
    rw [List.idxOf_append_of_mem ((hdense.mem_iff _).2 (hless.trans hlater)),
      List.idxOf_append_of_mem ((hdense.mem_iff _).2 hlater)]
    exact hdense.in_order earlier later hless hlater

theorem Dense.append_new {ids : List ℕ} {count : ℕ} (hdense : Dense ids count) :
    Dense (ids ++ [count]) (count + 1) := by
  have hfresh : count ∉ ids := fun hmem =>
    lt_irrefl _ ((hdense.mem_iff count).1 hmem)
  constructor
  · intro other
    rw [List.mem_append, List.mem_singleton, hdense.mem_iff]
    omega
  · intro earlier later hless hlater
    have hearlier : earlier ∈ ids := (hdense.mem_iff _).2 (by omega)
    rw [List.idxOf_append_of_mem hearlier]
    by_cases hlast : later = count
    · subst hlast
      rw [List.idxOf_append_of_notMem hfresh]
      have := List.idxOf_lt_length_of_mem hearlier
      omega
    · have hmem : later ∈ ids := (hdense.mem_iff _).2 (by omega)
      rw [List.idxOf_append_of_mem hmem]
      exact hdense.in_order earlier later hless (by omega)

/-- The table and the ids once the CPU `done` has the id `cluster`. -/
theorem Compacted.extend {done cluster next : ℕ} {state : Compaction}
    {parent : List ℕ} {table : List (Option ℕ)}
    (hstate : Compacted n root done state) (hforest : Forest n parent root)
    (hlength : table.length = n)
    (htable : ∀ r < n, ∀ other, table.getD r none = some other ↔
      state.rootToCluster.getD r none = some other ∨
        (r = root done ∧ other = cluster))
    (hsame : ∀ i < done, state.clusterId[i]? = some cluster →
      root i = root done)
    (hdense : Dense (state.clusterId ++ [cluster]) next) :
    Compacted n root (done + 1)
      { parent, rootToCluster := table, next,
        clusterId := state.clusterId ++ [cluster] } where
  forest := hforest
  length_eq := by simp [hstate.length_eq]
  table_length := hlength
  table_iff := by
    have hlen := hstate.length_eq
    intro r hr other
    rw [htable r hr, hstate.table_iff r hr]
    constructor
    · rintro (⟨i, hi, hroot, hid⟩ | ⟨rfl, rfl⟩)
      · refine ⟨i, by omega, hroot, ?_⟩
        rw [List.getElem?_append_left (by omega), hid]
      · refine ⟨done, by omega, rfl, ?_⟩
        rw [← hlen, List.getElem?_concat_length]
    · rintro ⟨i, hi, hroot, hid⟩
      by_cases hlast : i = done
      · subst hlast
        rw [← hlen, List.getElem?_concat_length] at hid
        exact Or.inr ⟨hroot.symm, (Option.some.inj hid).symm⟩
      · rw [List.getElem?_append_left (by omega)] at hid
        exact Or.inl ⟨i, by omega, hroot, hid⟩
  separate := by
    have hlen := hstate.length_eq
    have hat : (state.clusterId ++ [cluster])[done]? = some cluster := by
      rw [← hlen, List.getElem?_concat_length]
    have hbefore : ∀ i < done, (state.clusterId ++ [cluster])[i]? =
        state.clusterId[i]? := fun i hi =>
      List.getElem?_append_left (by omega)
    intro i hi j hj heq
    by_cases hilast : i = done <;> by_cases hjlast : j = done
    · rw [hilast, hjlast]
    · subst hilast
      rw [hat, hbefore j (by omega)] at heq
      exact (hsame j (by omega) heq.symm).symm
    · subst hjlast
      rw [hat, hbefore i (by omega)] at heq
      exact hsame i (by omega) heq
    · rw [hbefore i (by omega), hbefore j (by omega)] at heq
      exact hstate.separate i (by omega) j (by omega) heq
  dense := hdense

theorem Compacted.assign {done : ℕ} {state : Compaction}
    (hstate : Compacted n root done state) (hdone : done < n) :
    ∃ after, state.assign done = some after ∧
      Compacted n root (done + 1) after := by
  obtain ⟨parent, hfind, hforest⟩ := find_eq hstate.forest hdone
  have hroot := hforest.root_lt done hdone
  have htable := hstate.table_iff (root done) hroot
  unfold Compaction.assign
  rw [hfind]
  simp only [Option.bind_eq_bind, Option.bind_some]
  cases hentry : state.rootToCluster.getD (root done) none with
  | some cluster =>
      refine ⟨_, rfl, hstate.extend hforest hstate.table_length ?_ ?_ ?_⟩
      · intro r hr other
        refine (or_iff_left_of_imp ?_).symm
        rintro ⟨rfl, rfl⟩
        exact hentry
      · intro i hi hid
        obtain ⟨j, hj, hrootj, hidj⟩ := (htable cluster).1 hentry
        rw [← hrootj]
        exact hstate.separate i hi j hj (hid.trans hidj.symm)
      · obtain ⟨j, _, _, hidj⟩ := (htable cluster).1 hentry
        exact hstate.dense.append_old (List.mem_of_getElem? hidj)
  | none =>
      refine ⟨_, rfl, hstate.extend hforest (by simp [hstate.table_length])
        ?_ ?_ hstate.dense.append_new⟩
      · intro r hr other
        rw [List.getD_eq_getElem?_getD, List.getD_eq_getElem?_getD]
        by_cases hr' : r = root done
        · subst hr'
          rw [List.getElem?_set_self (by rw [hstate.table_length]; exact hroot),
            ← List.getD_eq_getElem?_getD, hentry]
          simp [eq_comm]
        · rw [List.getElem?_set_ne (Ne.symm hr')]
          simp [hr']
      · intro i _ hid
        have hmem := List.mem_of_getElem? hid
        exact absurd ((hstate.dense.mem_iff _).1 hmem) (lt_irrefl _)

theorem compact_eq (count : ℕ) {done : ℕ} {state : Compaction}
    (hstate : Compacted n root done state) (hle : done + count ≤ n) :
    ∃ after, (List.range' done count).foldlM Compaction.assign state =
        some after ∧ Compacted n root (done + count) after := by
  induction count generalizing done state with
  | zero => exact ⟨state, rfl, hstate⟩
  | succ count ih =>
      obtain ⟨middle, hassign, hmiddle⟩ := hstate.assign (by omega)
      obtain ⟨after, hafter, hcompacted⟩ := ih hmiddle (by omega)
      refine ⟨after, ?_, ?_⟩
      · rw [List.range'_succ, List.foldlM_cons, hassign]
        exact hafter
      · have hcount : done + (count + 1) = done + 1 + count := by omega
        rw [hcount]
        exact hcompacted

end Compact

/-! ## The branch -/

/-- The branch ends and finds the connected components of a symmetric
relation. -/
theorem componentIds_eq {n : ℕ} {fast : ℕ → ℕ → Bool}
    (hsymm : ∀ i < n, ∀ j < n, fast i j = fast j i) :
    ∃ ids count, componentIds n fast = some (ids, count) ∧
      Components n fast ids count := by
  obtain ⟨parent, root, hconnect, hforest, hroot⟩ := connect_eq hsymm
  obtain ⟨final, hfinal, hcompacted⟩ :=
    compact_eq n (Compacted.start hforest) (by omega)
  rw [Nat.zero_add] at hcompacted
  refine ⟨final.clusterId, final.next, ?_, hcompacted.length_eq, ?_,
    hcompacted.dense⟩
  · rw [componentIds, hconnect, List.range_eq_range']
    simp only [Option.bind_eq_bind, Option.bind_some]
    rw [hfinal]
    rfl
  · intro i hi j hj
    rw [← hroot i hi j hj]
    refine ⟨hcompacted.separate i hi j hj, fun heq => ?_⟩
    have hentry : ∀ k < n, ∃ cluster, final.clusterId[k]? = some cluster ∧
        final.rootToCluster.getD (root k) none = some cluster := by
      intro k hk
      have hid := List.getElem?_eq_getElem
        (by rw [hcompacted.length_eq]; exact hk : k < final.clusterId.length)
      exact ⟨_, hid, (hcompacted.table_iff _
        (hcompacted.forest.root_lt k hk) _).2 ⟨k, hk, rfl, hid⟩⟩
    obtain ⟨left, hleft, htablei⟩ := hentry i hi
    obtain ⟨right, hright, htablej⟩ := hentry j hj
    rw [heq] at htablei
    rw [hleft, hright, ← htablei, ← htablej]

theorem Dense.count_le {ids : List ℕ} {count : ℕ} (hdense : Dense ids count) :
    count ≤ ids.length := by
  have hsubset : List.range count ⊆ ids := fun cluster hcluster =>
    (hdense.mem_iff cluster).2 (List.mem_range.1 hcluster)
  simpa using (List.subperm_of_subset List.nodup_range hsubset).length_le

/-- The latencies the split is computed from. -/
def offDiag (mat : LatencyMatrix) : List F64 :=
  (pairs mat.cpus.length).map fun (i, j) => latency mat i j

/-- The fast-edge test of the branch. -/
def fastPair (arithmetic : LatencyArithmetic) (mat : LatencyMatrix)
    (i j : ℕ) : Bool :=
  arithmetic.fastEdge (offDiag mat) (latency mat i j)

/-- Where the histogram splits, the clusters are the connected components of
the fast edges, and `find` ends in every forest on the way. -/
theorem clusterByLatency_components (arithmetic : LatencyArithmetic)
    (mat : LatencyMatrix) (sysfsPrior : List (List UInt32))
    (hvalid : mat.valid = true) (htwo : 2 ≤ mat.cpus.length)
    (hword : mat.cpus.length < 2 ^ 32)
    (hsymm : ∀ i < mat.cpus.length, ∀ j < mat.cpus.length,
      latency mat i j = latency mat j i)
    (hbranch : kMinOtsuPairs ≤ (offDiag mat).length ∧
      arithmetic.bimodal (offDiag mat) = true) :
    (∃ result, clusterByLatency arithmetic mat sysfsPrior = some result ∧
      Components mat.cpus.length (fastPair arithmetic mat)
        (result.clusterIdOfCpuIndex.map UInt32.toNat)
        result.numClusters.toNat) ∧
    ∀ parent, Reachable mat.cpus.length parent → ∀ x < mat.cpus.length,
      ∃ after root, find (parent.length + 1) parent x = some (after, root) ∧
        after.getD root root = root := by
  constructor
  · have hfast : ∀ i < mat.cpus.length, ∀ j < mat.cpus.length,
        fastPair arithmetic mat i j = fastPair arithmetic mat j i := by
      intro i hi j hj
      rw [fastPair, hsymm i hi j hj, fastPair]
    obtain ⟨ids, count, hids, hcomponents⟩ := componentIds_eq hfast
    have hcount := hcomponents.dense.count_le
    rw [hcomponents.length_eq] at hcount
    have hclusters : clusterIds arithmetic mat sysfsPrior =
        some (ids, count) := by
      rw [clusterIds]
      exact (if_pos hbranch).trans hids
    have hback : (ids.map UInt32.ofNat).map UInt32.toNat = ids := by
      rw [List.map_map]
      refine (List.map_congr_left fun id hid => ?_).trans (List.map_id _)
      have hlt := (hcomponents.dense.mem_iff id).1 hid
      simpa using Nat.mod_eq_of_lt (by omega : id < 2 ^ 32)
    have hbackCount : (UInt32.ofNat count).toNat = count := by
      simpa using Nat.mod_eq_of_lt (by omega : count < 2 ^ 32)
    refine ⟨{
      clusterIdOfCpuIndex := ids.map UInt32.ofNat
      numClusters := UInt32.ofNat count
      clusterDistanceNs := clusterDistances arithmetic mat ids count }, ?_, ?_⟩
    · rw [clusterByLatency, if_neg (by simp [hvalid]; omega), hclusters]
      rfl
    · simp only [hback, hbackCount]
      exact hcomponents
  · intro parent hreach x hx
    obtain ⟨root, hforest⟩ := hreach.exists_forest
    obtain ⟨after, hfind, hafter⟩ := find_eq hforest hx
    exact ⟨after, root x, hfind, hafter.root_fixed x hx⟩

/-- Five CPUs: latency `1` inside `{0, 2, 4}` and inside `{1, 3}`, `9` across. -/
def twoIslands : LatencyMatrix where
  cpus := [0, 1, 2, 3, 4]
  matrix := (List.range 5).map fun i => (List.range 5).map fun j =>
    if i % 2 = j % 2 then 1 else 9
  valid := true

/-- A split at latencies below `5`. -/
def belowFive : LatencyArithmetic where
  bimodal := fun _ => true
  fastEdge := fun _ value => value < 5
  less := fun x y => x < y
  crossOverIntra := fun _ => none

theorem twoIslands_components :
    (∃ result, clusterByLatency belowFive twoIslands [] = some result ∧
      Components twoIslands.cpus.length (fastPair belowFive twoIslands)
        (result.clusterIdOfCpuIndex.map UInt32.toNat)
        result.numClusters.toNat) ∧
    ∀ parent, Reachable twoIslands.cpus.length parent →
      ∀ x < twoIslands.cpus.length,
        ∃ after root, find (parent.length + 1) parent x = some (after, root) ∧
          after.getD root root = root :=
  clusterByLatency_components belowFive twoIslands [] rfl (by decide)
    (by decide) (by decide) (by decide)

end Citor.LatencyComponents
