import Citor.Core.IntervalFold
import Citor.Scan.ScanEngine

/-!
# Products and groups of a scan

The products of first-pass partials in slot order, over any interval of slots,
and the arithmetic of the groups: a slot's leader, the end of its group and
the cluster whose interval holds it.
-/

namespace Citor.Scan

open Citor.IntervalFold

variable {T : Type*}

/-! ## Products -/

section Products

variable (call : Call T)

/-- The product in slot order of the first-pass partials of `[lo, hi)`. -/
def product (lo hi : ℕ) : T :=
  intervalFold call.prefixFn call.identity call.partialOf lo hi

/-- The caller's `prefix` and `identity` form a monoid. -/
abbrev Call.IsMonoid : Prop :=
  MonoidLaws call.prefixFn call.identity

end Products

/-! ## Groups -/

section Groups

variable {call : Call T}

theorem Call.clusterFirst_zero : call.clusterFirst 0 = 0 := by
  unfold Call.clusterFirst
  split
  · rfl
  next layout _ => exact layout.first_zero

theorem Call.clusterFirst_lt {cluster : ℕ}
    (hcluster : cluster < call.numClusters) :
    call.clusterFirst cluster < call.clusterFirst (cluster + 1) := by
  have htwo := call.two_le
  unfold Call.numClusters at hcluster
  unfold Call.clusterFirst
  cases hengine : call.engine with
  | none =>
      rw [hengine] at hcluster
      simp only at hcluster ⊢
      obtain rfl : cluster = 0 := by omega
      simpa using (by omega : 0 < call.participants)
  | some layout =>
      rw [hengine] at hcluster
      exact layout.first_lt cluster hcluster

theorem Call.clusterFirst_end :
    call.clusterFirst call.numClusters = call.participants := by
  unfold Call.clusterFirst Call.numClusters
  cases call.engine with
  | none => rfl
  | some layout => exact layout.first_end

theorem Call.cluster_lt {slot : ℕ} (hslot : slot < call.participants) :
    call.cluster slot < call.numClusters := by
  unfold Call.cluster Call.numClusters
  cases call.engine with
  | none => exact Nat.one_pos
  | some layout => exact layout.id_lt slot hslot

theorem Call.leader_le {slot : ℕ} (hslot : slot < call.participants) :
    call.leader slot ≤ slot := by
  unfold Call.leader Call.clusterFirst Call.cluster
  cases call.engine with
  | none => exact Nat.zero_le slot
  | some layout => exact layout.first_le slot hslot

theorem Call.lt_groupEnd {slot : ℕ} (hslot : slot < call.participants) :
    slot < call.groupEnd slot := by
  unfold Call.groupEnd Call.clusterFirst Call.cluster
  cases call.engine with
  | none => exact hslot
  | some layout => exact layout.lt_next slot hslot

theorem Call.clusterFirst_mono {left right : ℕ} (hle : left ≤ right)
    (hright : right ≤ call.numClusters) :
    call.clusterFirst left ≤ call.clusterFirst right := by
  induction right, hle using Nat.le_induction with
  | base => exact le_rfl
  | succ right hle ih =>
      have := call.clusterFirst_lt (show right < call.numClusters by omega)
      have := ih (by omega)
      omega

theorem Call.groupEnd_le {slot : ℕ} (hslot : slot < call.participants) :
    call.groupEnd slot ≤ call.participants := by
  have hcluster := call.cluster_lt hslot
  have hmono := call.clusterFirst_mono
    (show call.cluster slot + 1 ≤ call.numClusters from hcluster) le_rfl
  rwa [call.clusterFirst_end] at hmono

/-- A slot lies in the cluster whose interval holds it. -/
theorem Call.cluster_eq {slot cluster : ℕ} (hslot : slot < call.participants)
    (hcluster : cluster < call.numClusters)
    (hlow : call.clusterFirst cluster ≤ slot)
    (hhigh : slot < call.clusterFirst (cluster + 1)) :
    call.cluster slot = cluster := by
  have hown := call.leader_le hslot
  have hend := call.lt_groupEnd hslot
  have hid := call.cluster_lt hslot
  unfold Call.leader at hown
  unfold Call.groupEnd at hend
  by_contra hne
  rcases lt_or_gt_of_ne hne with hless | hmore
  · have := call.clusterFirst_mono
      (show call.cluster slot + 1 ≤ cluster from hless) (by omega)
    omega
  · have := call.clusterFirst_mono
      (show cluster + 1 ≤ call.cluster slot from hmore) (by omega)
    omega

/-- The first slot of a cluster is its leader. -/
theorem Call.cluster_clusterFirst {cluster : ℕ}
    (hcluster : cluster < call.numClusters) :
    call.cluster (call.clusterFirst cluster) = cluster := by
  have hlt := call.clusterFirst_lt hcluster
  have hmono := call.clusterFirst_mono
    (show cluster + 1 ≤ call.numClusters from hcluster) le_rfl
  rw [call.clusterFirst_end] at hmono
  exact call.cluster_eq (by omega) hcluster le_rfl hlt

theorem Call.clusterFirst_lt_participants {cluster : ℕ}
    (hcluster : cluster < call.numClusters) :
    call.clusterFirst cluster < call.participants := by
  have hlt := call.clusterFirst_lt hcluster
  have hmono := call.clusterFirst_mono
    (show cluster + 1 ≤ call.numClusters from hcluster) le_rfl
  rw [call.clusterFirst_end] at hmono
  omega

theorem Call.leader_flat (hflat : call.hierarchical = false) (slot : ℕ) :
    call.leader slot = 0 := by
  unfold Call.hierarchical at hflat
  unfold Call.leader Call.clusterFirst Call.cluster
  cases hengine : call.engine with
  | none => rfl
  | some layout => simp [hengine] at hflat

theorem Call.numClusters_flat (hflat : call.hierarchical = false) :
    call.numClusters = 1 := by
  unfold Call.hierarchical at hflat
  unfold Call.numClusters
  cases hengine : call.engine with
  | none => rfl
  | some layout => simp [hengine] at hflat

theorem Call.groupEnd_flat (hflat : call.hierarchical = false) (slot : ℕ) :
    call.groupEnd slot = call.participants := by
  unfold Call.hierarchical at hflat
  unfold Call.groupEnd Call.clusterFirst Call.cluster
  cases hengine : call.engine with
  | none => rfl
  | some layout => simp [hengine] at hflat

theorem Call.numClusters_pos : 0 < call.numClusters := by
  have htwo := call.two_le
  exact Nat.zero_lt_of_lt
    (call.cluster_lt (show 0 < call.participants by omega))

theorem Call.leader_clusterFirst {cluster : ℕ}
    (hcluster : cluster < call.numClusters) :
    call.leader (call.clusterFirst cluster) = call.clusterFirst cluster := by
  unfold Call.leader
  rw [call.cluster_clusterFirst hcluster]

theorem Call.leader_zero : call.leader 0 = 0 := by
  have htwo := call.two_le
  have := call.leader_le (show 0 < call.participants by omega)
  omega

theorem Call.leader_lt {slot : ℕ} (hslot : slot < call.participants) :
    call.leader slot < call.participants :=
  (call.leader_le hslot).trans_lt hslot

theorem Call.cluster_leader {slot : ℕ} (hslot : slot < call.participants) :
    call.cluster (call.leader slot) = call.cluster slot :=
  call.cluster_clusterFirst (call.cluster_lt hslot)

theorem Call.leader_leader {slot : ℕ} (hslot : slot < call.participants) :
    call.leader (call.leader slot) = call.leader slot := by
  show call.clusterFirst (call.cluster (call.leader slot)) = _
  rw [call.cluster_leader hslot]
  rfl

theorem Call.groupEnd_leader {slot : ℕ} (hslot : slot < call.participants) :
    call.groupEnd (call.leader slot) = call.groupEnd slot := by
  unfold Call.groupEnd
  rw [call.cluster_leader hslot]

theorem Call.leader_inj {left right : ℕ} (hleft : call.leader left = left)
    (hright : call.leader right = right)
    (hcluster : call.cluster left = call.cluster right) : left = right := by
  rw [← hleft, ← hright]
  unfold Call.leader
  rw [hcluster]

/-- The interval of a group holds its members only. -/
theorem Call.cluster_of_mem {slot member : ℕ} (hslot : slot < call.participants)
    (hlow : call.leader slot ≤ member) (hhigh : member < call.groupEnd slot) :
    call.cluster member = call.cluster slot :=
  call.cluster_eq (hhigh.trans_le (call.groupEnd_le hslot))
    (call.cluster_lt hslot) hlow hhigh

theorem Call.leader_of_mem {slot member : ℕ} (hslot : slot < call.participants)
    (hlow : call.leader slot ≤ member) (hhigh : member < call.groupEnd slot) :
    call.leader member = call.leader slot := by
  unfold Call.leader
  rw [call.cluster_of_mem hslot hlow hhigh]

end Groups

end Citor.Scan
