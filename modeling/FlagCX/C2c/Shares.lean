import FlagCX.C2c.Constructor
import FlagCX.C2c.Room

/-!
# Where the ranges of `refresh(1)` lie

Each inter-rank of a cluster gets a share of what the cluster sends, the same one for every destination.

* `mem_refresh1` : the infos of a list, by inter-rank number and destination.
* `sequential_range`, `pipeline_range` : a range lies within the share of its inter-rank; shares are consecutive, so that
  an element is in one share only (`interval_unique`).
-/

namespace FlagCX.C2c
open List

theorem interval_unique (lo : Nat → Nat) (hmono : ∀ {i j}, i ≤ j → lo i ≤ lo j) {i j x : Nat} (hi : lo i ≤ x)
    (hi' : x < lo (i + 1)) (hj : lo j ≤ x) (hj' : x < lo (j + 1)) : i = j := by
  rcases lt_trichotomy i j with h | h | h
  · have := hmono (i := i + 1) h
    omega
  · exact h
  · have := hmono (i := j + 1) h
    omega

namespace Planner

/-- The infos `refresh(1)` makes at inter-rank `j` of cluster `i` for cluster `z`. -/
def initialInfos (p : Planner) (i j z : Nat) : List BufferInfo :=
  if p.pipelined then p.pipelineInfos i j z else p.sequentialInfos i j z

/-- Where the elements of cluster `i` begin. -/
def clusterBase (p : Planner) (i : Nat) : Nat := if p.recvCount ≤ p.sendCount then 0 else p.clusterOffset i * p.sendCount

/-- `rankOffset` of `refresh(1)`. -/
def rankOffset (p : Planner) (i j : Nat) : Nat :=
  let n := p.nClusterInterRanks i
  let myCount := p.clusterCount i / n
  let myRes := p.clusterCount i % n
  if j < n - myRes then myCount * j else myCount * (n - myRes) + (myCount + 1) * (j - (n - myRes))

/-- `rankCount` of the pipelined branch. -/
def rankCount (p : Planner) : Nat := p.totalCount / p.comm.nranks

/-- The elements of the block of cluster `z`. -/
def blockCount (p : Planner) (z : Nat) : Nat := p.rankCount * p.comm.clusterSizes z

/-- The first element of the block of cluster `z`. -/
def blockOffset (p : Planner) (z : Nat) : Nat := p.clusterOffset z * p.rankCount

/-- Where the share of inter-rank `j` of cluster `i` in the block of cluster `z` begins. -/
def shareOffset (p : Planner) (i z j : Nat) : Nat :=
  p.blockOffset z +
    if j < p.nClusterInterRanks i then p.blockCount z / p.nClusterInterRanks i * j else p.blockCount z

end Planner

section Offsets
variable {p : Planner} {i j z : Nat}

theorem clusterOffset_succ (p : Planner) (i : Nat) :
    p.clusterOffset (i + 1) = p.clusterOffset i + p.comm.clusterSizes i := by
  simp [Planner.clusterOffset, range_succ]

theorem clusterOffset_mono (p : Planner) (h : i ≤ j) : p.clusterOffset i ≤ p.clusterOffset j := by
  induction j, h using Nat.le_induction with
  | base => exact le_rfl
  | succ j _ ih =>
    rw [clusterOffset_succ]
    exact Nat.le_add_right_of_le ih

theorem blockOffset_succ (p : Planner) (z : Nat) : p.blockOffset (z + 1) = p.blockOffset z + p.blockCount z := by
  unfold Planner.blockOffset Planner.blockCount
  rw [clusterOffset_succ, Nat.add_mul, Nat.mul_comm p.rankCount]

theorem blockOffset_mono (p : Planner) {y : Nat} (h : y ≤ z) : p.blockOffset y ≤ p.blockOffset z :=
  Nat.mul_le_mul_right _ (clusterOffset_mono p h)

theorem rankOffset_succ (p : Planner) (i j : Nat) :
    p.rankOffset i (j + 1) = p.rankOffset i j + (p.clusterCount i / p.nClusterInterRanks i +
      if p.nClusterInterRanks i - p.clusterCount i % p.nClusterInterRanks i ≤ j then 1 else 0) := by
  unfold Planner.rankOffset
  simp only
  generalize p.nClusterInterRanks i - p.clusterCount i % p.nClusterInterRanks i = t
  by_cases h1 : j + 1 < t
  · rw [if_pos h1, if_pos (by omega), if_neg (by omega), Nat.mul_succ]
    omega
  · rw [if_neg h1]
    by_cases h2 : j < t
    · obtain rfl : t = j + 1 := by omega
      rw [if_pos h2, if_neg (by omega), Nat.sub_self, Nat.mul_succ]
      omega
    · obtain ⟨d, rfl⟩ := Nat.exists_eq_add_of_le (Nat.le_of_not_lt h2)
      rw [if_neg h2, if_pos (by omega), Nat.add_assoc t d 1, Nat.add_sub_cancel_left, Nat.add_sub_cancel_left,
        Nat.mul_succ]
      omega

theorem rankOffset_mono (p : Planner) (i : Nat) {k : Nat} (h : j ≤ k) : p.rankOffset i j ≤ p.rankOffset i k := by
  induction k, h using Nat.le_induction with
  | base => exact le_rfl
  | succ k _ ih =>
    rw [rankOffset_succ]
    exact Nat.le_add_right_of_le ih

theorem rankOffset_last (p : Planner) (i : Nat) (hn : 0 < p.nClusterInterRanks i) :
    p.rankOffset i (p.nClusterInterRanks i) = p.clusterCount i := by
  have hmod := Nat.mod_lt (p.clusterCount i) hn
  have hdiv := Nat.div_add_mod (p.clusterCount i) (p.nClusterInterRanks i)
  unfold Planner.rankOffset
  simp only
  generalize p.clusterCount i / p.nClusterInterRanks i = c at *
  generalize p.clusterCount i % p.nClusterInterRanks i = t at *
  generalize p.nClusterInterRanks i = n at *
  obtain ⟨d, rfl⟩ := Nat.exists_eq_add_of_lt hmod
  rw [if_neg (by omega), ← hdiv]
  have h1 : t + d + 1 - t = d + 1 := by omega
  have h2 : t + d + 1 - (d + 1) = t := by omega
  rw [h1, h2, Nat.add_mul, Nat.one_mul, Nat.add_mul, Nat.mul_succ, Nat.add_mul]
  have := Nat.mul_comm c t
  have := Nat.mul_comm c d
  omega

theorem shareOffset_mono (p : Planner) (i z : Nat) {k : Nat} (h : j ≤ k) : p.shareOffset i z j ≤ p.shareOffset i z k := by
  have hle : ∀ t < p.nClusterInterRanks i, p.blockCount z / p.nClusterInterRanks i * t ≤ p.blockCount z := by
    intro t ht
    have h1 := Nat.mul_le_mul_left (p.blockCount z / p.nClusterInterRanks i) (le_of_lt ht)
    have h2 := Nat.div_mul_le_self (p.blockCount z) (p.nClusterInterRanks i)
    omega
  refine Nat.add_le_add_left ?_ _
  split_ifs with hj hk hk
  · exact Nat.mul_le_mul_left _ h
  · exact hle j hj
  · omega
  · exact le_rfl

theorem shareOffset_ge (p : Planner) (i z j : Nat) : p.blockOffset z ≤ p.shareOffset i z j := Nat.le_add_right _ _

theorem shareOffset_le (p : Planner) (i z j : Nat) : p.shareOffset i z j ≤ p.blockOffset (z + 1) := by
  have h := shareOffset_mono p i z (le_max_left j (p.nClusterInterRanks i))
  have hend : p.shareOffset i z (max j (p.nClusterInterRanks i)) = p.blockOffset (z + 1) := by
    rw [blockOffset_succ, Planner.shareOffset, if_neg (by omega)]
  omega

end Offsets

section Ranges
variable {p : Planner} {m : BufferInfos} {i j z x : Nat} {e : BufferInfo}

/-- `refresh(1)` makes sends without a peer. -/
structure Fresh (e : BufferInfo) (z : Nat) (isScheduled : Bool) : Prop where
  pos : 0 < e.count
  dst : e.clusterIdToSend = z
  send : e.isRecv = false
  scheduled : e.isScheduled = isScheduled
  peer : e.peerRank = none

theorem mem_refresh1 (h : p.refresh1 = some m) {key : Nat × Nat} :
    e ∈ m key ↔ ∃ i < p.nclusters, ∃ j < p.nClusterInterRanks i, ∃ z < p.nclusters,
      key = (i, (p.ranks i).getD j 0) ∧ e ∈ p.initialInfos i j z := by
  unfold Planner.refresh1 at h
  split_ifs at h
  obtain rfl := Option.some.inj h
  simp only [mem_map, mem_filter, Planner.initialPushes, mem_flatMap, mem_range]
  constructor
  · rintro ⟨push, ⟨⟨i, hi, j, hj, z, hz, e', he', rfl⟩, hkey⟩, rfl⟩
    exact ⟨i, hi, j, hj, z, hz, (of_decide_eq_true hkey).symm, he'⟩
  · rintro ⟨i, hi, j, hj, z, hz, rfl, he⟩
    exact ⟨_, ⟨⟨i, hi, j, hj, z, hz, e, he, rfl⟩, decide_eq_true rfl⟩, rfl⟩

theorem sequential_range (h : e ∈ p.sequentialInfos i j z) :
    i ≠ z ∧ p.isUseless i = false ∧ Fresh e z (p.isScheduled i) ∧
      p.clusterBase i + p.rankOffset i j ≤ e.offset ∧ e.offset + e.count ≤ p.clusterBase i + p.rankOffset i (j + 1) := by
  unfold Planner.sequentialInfos at h
  by_cases hu : i = z ∨ p.isUseless i = true
  · rw [if_pos hu] at h
    exact absurd h not_mem_nil
  rw [if_neg hu, not_or, Bool.not_eq_true] at *
  obtain ⟨hiz, hu⟩ := hu
  simp only [mem_map, mem_range] at h
  obtain ⟨k, hk, rfl⟩ := h
  rw [rankOffset_succ]
  have hbase : (if p.recvCount ≤ p.sendCount then p.rankOffset i j else p.clusterOffset i * p.sendCount + p.rankOffset i j) =
      p.clusterBase i + p.rankOffset i j := by
    unfold Planner.clusterBase
    split_ifs <;> omega
  unfold Planner.rankOffset at hbase ⊢
  rw [hbase]
  generalize p.clusterCount i / p.nClusterInterRanks i + (if p.nClusterInterRanks i - p.clusterCount i % p.nClusterInterRanks i ≤ j then 1 else 0) =
    rankCount at hk ⊢
  generalize (if p.granularity = .coarse then rankCount else p.clusterCount i / p.lcm) = c at hk ⊢
  split_ifs at hk with hc
  · refine ⟨hiz, hu, ⟨hc, rfl, rfl, rfl, rfl⟩, Nat.le_add_right _ _, ?_⟩
    have h1 : c * (k + 1) ≤ rankCount := (Nat.mul_le_mul_left c hk).trans (Nat.mul_div_le rankCount c)
    rw [Nat.mul_succ] at h1
    simp only [Planner.sendInfo]
    omega
  · exact absurd hk (Nat.not_lt_zero k)

theorem pipeline_range (hacc : p.accepted) (hp : p.pipelined = true) (hz : z < p.nclusters)
    (hj : j < p.nClusterInterRanks i) (h : e ∈ p.pipelineInfos i j z) :
    Fresh e z (p.isScheduled i || i == z) ∧ p.shareOffset i z j ≤ e.offset ∧
      e.offset + e.count ≤ p.shareOffset i z (j + 1) := by
  have hmin : 0 < p.blockCount z / p.lcm := Nat.pos_of_ne_zero ((hacc.2 hp).2 z hz)
  have hdiv := Nat.div_add_mod (p.blockCount z) (p.nClusterInterRanks i)
  have hend : p.shareOffset i z j + p.blockCount z / p.nClusterInterRanks i ≤ p.shareOffset i z (j + 1) := by
    unfold Planner.shareOffset
    rw [if_pos hj, Nat.add_assoc]
    refine Nat.add_le_add_left ?_ _
    split_ifs with hj'
    · rw [Nat.mul_succ]
    · obtain h1 : p.nClusterInterRanks i = j + 1 := by omega
      rw [h1, Nat.add_mul, Nat.one_mul] at hdiv
      rw [h1, Nat.mul_comm]
      omega
  have hstart : p.clusterOffset z * (p.totalCount / p.comm.nranks) +
      p.totalCount / p.comm.nranks * p.comm.clusterSizes z / p.nClusterInterRanks i * j = p.shareOffset i z j := by
    unfold Planner.shareOffset
    rw [if_pos hj]
    rfl
  unfold Planner.pipelineInfos at h
  simp only [hstart, mem_append, mem_map, mem_range] at h
  change (∃ k, k < p.blockCount z / p.nClusterInterRanks i / (p.blockCount z / p.lcm) ∧ _ ) ∨ _ at h
  rcases h with ⟨k, hk, rfl⟩ | h
  · refine ⟨⟨hmin, rfl, rfl, rfl, rfl⟩, Nat.le_add_right _ _, le_trans ?_ hend⟩
    have h1 := (Nat.mul_le_mul_left (p.blockCount z / p.lcm) hk).trans (Nat.mul_div_le _ _)
    rw [Nat.mul_succ] at h1
    change p.shareOffset i z j + p.blockCount z / p.lcm * k + p.blockCount z / p.lcm ≤ _
    omega
  · split_ifs at h with hlast
    · obtain rfl := mem_singleton.1 h
      refine ⟨⟨hlast.2, rfl, rfl, rfl, rfl⟩, le_rfl, ?_⟩
      change p.shareOffset i z j + p.blockCount z % p.nClusterInterRanks i ≤ _
      unfold Planner.shareOffset
      rw [if_pos hj, if_neg (by omega), Nat.add_assoc]
      refine Nat.add_le_add_left ?_ _
      have h1 := Nat.mul_le_mul_left (p.blockCount z / p.nClusterInterRanks i) (Nat.le_of_lt hj)
      rw [Nat.mul_comm _ (p.nClusterInterRanks i)] at h1
      omega
    · exact absurd h not_mem_nil

theorem exists_of_covered {l : List BufferInfo} (h : covered z x l ≠ 0) :
    ∃ e ∈ l, e.isRecv = false ∧ e.clusterIdToSend = z ∧ e.Contains x := by
  obtain ⟨e, he, hc⟩ := countP_pos_iff.1 (Nat.pos_of_ne_zero h)
  simp only [Bool.and_eq_true, Bool.not_eq_true', beq_iff_eq, decide_eq_true_eq] at hc
  exact ⟨e, he, hc.1.1, hc.1.2, hc.2⟩

theorem exists_of_holds {l : List BufferInfo} (h : holds x l = true) : ∃ e ∈ l, e.isRecv = false ∧ e.Contains x := by
  simp only [holds, any_eq_true, Bool.and_eq_true, Bool.not_eq_true', decide_eq_true_eq] at h
  exact h

theorem countP_le_one {α : Type} {f : α → Bool} {l : List α} (hl : l.Nodup)
    (h : ∀ x ∈ l, ∀ y ∈ l, f x = true → f y = true → x = y) : l.countP f ≤ 1 := by
  induction l with
  | nil => exact Nat.zero_le _
  | cons x l ih =>
    rw [countP_cons]
    split_ifs with hx
    · rw [countP_eq_zero.2]
      intro y hy hfy
      exact (nodup_cons.1 hl).1 (h x mem_cons_self y (mem_cons_of_mem _ hy) hx hfy ▸ hy)
    · exact ih (nodup_cons.1 hl).2 fun a ha b hb => h a (mem_cons_of_mem _ ha) b (mem_cons_of_mem _ hb)

theorem range_of_mem (h : p.refresh1 = some m) {r : Nat} (he : e ∈ m (i, r)) (hx : e.Contains x) :
    ∃ j < p.nClusterInterRanks i, r = (p.ranks i).getD j 0 ∧
      (if p.pipelined = true then p.shareOffset i e.clusterIdToSend j ≤ x ∧ x < p.shareOffset i e.clusterIdToSend (j + 1)
        else p.isUseless i = false ∧ p.clusterBase i + p.rankOffset i j ≤ x ∧
          x < p.clusterBase i + p.rankOffset i (j + 1)) := by
  have hacc : p.accepted := by
    unfold Planner.refresh1 at h
    split_ifs at h with hacc
    exact hacc
  obtain ⟨i', hi, j, hj, z, hz, hkey, hinit⟩ := (mem_refresh1 h).1 he
  obtain ⟨rfl, rfl⟩ := Prod.mk.inj hkey
  refine ⟨j, hj, rfl, ?_⟩
  unfold BufferInfo.Contains at hx
  unfold Planner.initialInfos at hinit
  split_ifs at hinit ⊢ with hp
  · obtain ⟨hf, h1, h2⟩ := pipeline_range hacc hp hz hj hinit
    rw [hf.dst]
    omega
  · obtain ⟨-, hu, -, h1, h2⟩ := sequential_range hinit
    exact ⟨hu, by omega⟩

theorem holders_refresh1 (h : p.refresh1 = some m) (z x : Nat) : holders p m z x ≤ 1 := by
  refine countP_le_one (p.comm.nodup z) fun b _ b' _ hb hb' => ?_
  obtain ⟨e, he, -, hx⟩ := exists_of_holds hb
  obtain ⟨e', he', -, hx'⟩ := exists_of_holds hb'
  obtain ⟨j, -, rfl, hj⟩ := range_of_mem h he hx
  obtain ⟨j', -, rfl, hj'⟩ := range_of_mem h he' hx'
  split_ifs at hj hj' with hp
  · have hblock : e.clusterIdToSend = e'.clusterIdToSend := by
      have h1 := shareOffset_ge p z e.clusterIdToSend j
      have h2 := shareOffset_le p z e.clusterIdToSend (j + 1)
      have h3 := shareOffset_ge p z e'.clusterIdToSend j'
      have h4 := shareOffset_le p z e'.clusterIdToSend (j' + 1)
      exact interval_unique p.blockOffset (x := x) (blockOffset_mono p) (by omega) (by omega) (by omega) (by omega)
    rw [← hblock] at hj'
    rw [interval_unique _ (shareOffset_mono p z e.clusterIdToSend) hj.1 hj.2 hj'.1 hj'.2]
  · rw [interval_unique (fun j => p.clusterBase z + p.rankOffset z j)
      (fun hle => Nat.add_le_add_left (rankOffset_mono p z hle) _) hj.2.1 hj.2.2 hj'.2.1 hj'.2.2]

end Ranges

end FlagCX.C2c
