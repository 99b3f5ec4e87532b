import Mathlib.Data.Finset.Card
import Mathlib.Data.Finset.Image
import Mathlib.Data.Finset.Max
import Mathlib.Data.Nat.Find
import Mathlib.Order.Interval.Finset.Nat

/-!
# Clusters of one vendor (`flagcxCollectClusterInfos`)

Each rank finds its own cluster in one scan over the vendors of all ranks.

* `collectClusterInfos` : what a rank computes; `collect_eq` : its values in closed form.
* `Consistent`          : what the values of all ranks say together.
* `clusters_consistent_iff` : they say it exactly when the ranks of each vendor stand next to each other.
-/

namespace FlagCX.Cluster
open Finset Function

/-! ## The scan -/

inductive CommunicatorType where
  | homo
  | hybrid
  deriving DecidableEq, Repr

/-- The values that `flagcxCollectClusterInfos` returns. -/
structure ClusterInfos where
  type : CommunicatorType
  homoRank : Int
  homoRootRank : Nat
  homoRanks : Nat
  clusterId : Nat
  clusterInterRank : Int
  ncluster : Nat
  deriving DecidableEq, Repr

/-- The variables of the scan. A vendor is in `clusterMap` when its count is not zero; its size is `numClusters`, which counts
what is put in. -/
structure Scan (α : Type) where
  clusterMap : α → Nat
  numClusters : Nat
  currCluster : Nat
  aggRanks : Nat
  localHomoRootRank : Nat
  homoRank : Int
  homoRootRank : Nat

section Model
variable {α : Type} [DecidableEq α] (allData : Nat → α)

def Scan.start (rank : Nat) : Scan α := ⟨update (fun _ => 0) (allData 0) 1, 1, 0, 1, 0, rank, 0⟩

/-- One round of the loop, for rank `i`. -/
def Scan.step (rank : Nat) (s : Scan α) (i : Nat) : Scan α :=
  let cls := allData i
  let s :=
    if s.clusterMap cls ≠ 0 then { s with clusterMap := update s.clusterMap cls (s.clusterMap cls + 1) }
    else
      let s := { s with clusterMap := update s.clusterMap cls 1, numClusters := s.numClusters + 1 }
      if allData rank = cls then
        { s with homoRank := s.homoRank - s.aggRanks, currCluster := s.numClusters - 1, localHomoRootRank := i }
      else s
  { s with aggRanks := s.aggRanks + 1, homoRootRank := if i = rank then s.localHomoRootRank else s.homoRootRank }

/-- `flagcxCollectClusterInfos`, without a split list. -/
def collectClusterInfos (nranks rank : Nat) : ClusterInfos :=
  if nranks ≤ 1 then ⟨.homo, rank, 0, 1, 0, -1, 1⟩
  else
    let s := (List.range' 1 (nranks - 1)).foldl (Scan.step allData rank) (.start allData rank)
    let homoRanks := s.clusterMap (allData rank)
    if 1 < s.numClusters then ⟨.hybrid, s.homoRank, s.homoRootRank, homoRanks, s.currCluster, -1, s.numClusters⟩
    else ⟨.homo, s.homoRank, s.homoRootRank, homoRanks, 0, -1, 1⟩

def firstRank (rank : Nat) : Nat := Nat.find (p := fun i => allData i = allData rank) ⟨rank, rfl⟩

/-- The ranks below `n` of a vendor. -/
def members (n : Nat) (v : α) : Finset Nat := (range n).filter (allData · = v)

/-- The vendors of the ranks below `n`. -/
def vendors (n : Nat) : Finset α := (range n).image allData

end Model

/-! ## The values in closed form -/

section Values
variable {α : Type} [DecidableEq α] {allData : Nat → α} {rank r k n : Nat} {s : Scan α}

theorem firstRank_spec (rank : Nat) : allData (firstRank allData rank) = allData rank := Nat.find_spec (p := fun i => allData i = _) _

theorem firstRank_le (h : allData k = allData rank) : firstRank allData rank ≤ k := Nat.find_min' _ h

theorem firstRank_congr (h : allData r = allData rank) : firstRank allData r = firstRank allData rank :=
  le_antisymm (firstRank_le ((firstRank_spec rank).trans h.symm)) (firstRank_le ((firstRank_spec r).trans h))

/-- The scan after the ranks below `k`. -/
structure Scanned (allData : Nat → α) (rank k : Nat) (s : Scan α) : Prop where
  map : ∀ v, s.clusterMap v = (members allData k v).card
  num : s.numClusters = (vendors allData k).card
  agg : s.aggRanks = k
  curr : s.currCluster = if firstRank allData rank < k then (vendors allData (firstRank allData rank)).card else 0
  root : s.localHomoRootRank = if firstRank allData rank < k then firstRank allData rank else 0
  homo : s.homoRank = rank - if firstRank allData rank < k then (firstRank allData rank : Int) else 0
  homoRoot : s.homoRootRank = if rank < k then firstRank allData rank else 0

theorem members_succ (v : α) :
    (members allData (k + 1) v).card = (members allData k v).card + if allData k = v then 1 else 0 := by
  rw [members, range_add_one, filter_insert]
  split_ifs
  · rw [card_insert_of_notMem (by simp)]
    rfl
  · rfl

theorem mem_vendors {v : α} : v ∈ vendors allData k ↔ (members allData k v).card ≠ 0 := by
  rw [vendors, members, Ne, card_eq_zero, ← Ne, ← nonempty_iff_ne_empty, filter_nonempty_iff, mem_image]

theorem vendors_succ : vendors allData (k + 1) = insert (allData k) (vendors allData k) := by
  rw [vendors, range_add_one, image_insert]
  rfl

theorem firstRank_eq (h : allData k ∉ vendors allData k) : firstRank allData k = k :=
  le_antisymm (firstRank_le rfl) (Nat.le_of_not_lt fun hlt => h (mem_image.2 ⟨_, mem_range.2 hlt, firstRank_spec k⟩))

theorem scanned_start (rank : Nat) : Scanned allData rank 1 (Scan.start allData rank) := by
  have hfirst : firstRank allData rank ≤ rank := firstRank_le rfl
  refine ⟨fun v => ?_, rfl, rfl, ?_, ?_, ?_, ?_⟩
  · rw [members_succ]
    by_cases hv : allData 0 = v <;> simp [Scan.start, members, hv, Ne.symm]
  all_goals simp only [Scan.start]; split_ifs with h
  · rw [Nat.lt_one_iff.1 h]
    rfl
  · rfl
  · omega
  · rfl
  · omega
  · omega
  · omega
  · rfl

theorem Scanned.step (h : Scanned allData rank k s) : Scanned allData rank (k + 1) (s.step allData rank k) := by
  have hle : firstRank allData rank ≤ rank := firstRank_le rfl
  have hmap : ∀ v, update s.clusterMap (allData k) (s.clusterMap (allData k) + 1) v = (members allData (k + 1) v).card := by
    intro v
    rw [members_succ, ← h.map]
    by_cases hv : allData k = v
    · rw [if_pos hv, ← hv, update_self]
    · rw [if_neg hv, update_of_ne (Ne.symm hv)]
      rfl
  by_cases hseen : s.clusterMap (allData k) ≠ 0
  · -- the vendor is known, and rank `k` not its first
    have hmem := mem_vendors.2 (h.map _ ▸ hseen)
    have hne : firstRank allData rank ≠ k := by
      rintro rfl
      obtain ⟨i, hi, heq⟩ := mem_image.1 hmem
      exact absurd (firstRank_le (heq.trans (firstRank_spec rank))) (not_le.2 (mem_range.1 hi))
    have hlt : firstRank allData rank < k + 1 ↔ firstRank allData rank < k := by omega
    simp only [Scan.step, if_pos hseen]
    refine ⟨hmap, ?_, by rw [h.agg], ?_, ?_, ?_, ?_⟩
    · rw [vendors_succ, insert_eq_of_mem hmem, h.num]
    · simp only [hlt, h.curr]
    · simp only [hlt, h.root]
    · simp only [hlt, h.homo]
    · simp only [h.root, h.homoRoot]
      split_ifs <;> omega
  · have hzero := not_not.1 hseen
    rw [hzero] at hmap
    have hnew : allData k ∉ vendors allData k := fun hmem => mem_vendors.1 hmem (h.map _ ▸ hzero)
    have hcard : (vendors allData (k + 1)).card = s.numClusters + 1 := by rw [vendors_succ, card_insert_of_notMem hnew, h.num]
    by_cases hmine : allData rank = allData k
    · -- the first rank of the vendor
      have hfirst : firstRank allData rank = k := (firstRank_congr hmine).trans (firstRank_eq hnew)
      simp only [Scan.step, if_neg hseen, if_pos hmine]
      refine ⟨hmap, hcard.symm, by rw [h.agg], ?_, ?_, ?_, ?_⟩
      · simp only [hfirst, Nat.lt_succ_self, if_true, Nat.add_sub_cancel, h.num]
      · simp only [hfirst, Nat.lt_succ_self, if_true]
      · simp only [h.homo, h.agg, hfirst, lt_irrefl, Nat.lt_succ_self, if_true, if_false, Int.sub_zero]
      · simp only [hfirst, h.homoRoot]
        split_ifs <;> omega
    · have hne : firstRank allData rank ≠ k := fun heq => hmine (heq ▸ (firstRank_spec rank).symm)
      have hlt : firstRank allData rank < k + 1 ↔ firstRank allData rank < k := by omega
      simp only [Scan.step, if_neg hseen, if_neg hmine]
      refine ⟨hmap, hcard.symm, by rw [h.agg], ?_, ?_, ?_, ?_⟩
      · simp only [hlt, h.curr]
      · simp only [hlt, h.root]
      · simp only [hlt, h.homo]
      · simp only [h.root, h.homoRoot]
        split_ifs <;> omega

theorem scanned (rank : Nat) (k : Nat) :
    Scanned allData rank (k + 1) ((List.range' 1 k).foldl (Scan.step allData rank) (.start allData rank)) := by
  induction k with
  | zero => exact scanned_start rank
  | succ k ih =>
    rw [List.range'_1_concat, List.foldl_append, add_comm 1 k]
    exact ih.step

theorem vendors_lt (h : firstRank allData r < k) : (vendors allData (firstRank allData r)).card < (vendors allData k).card := by
  refine card_lt_card (ssubset_iff_of_subset (image_subset_image (range_subset_range.2 h.le)) |>.2 ⟨allData r, ?_, fun hmem => ?_⟩)
  · exact mem_image.2 ⟨_, mem_range.2 h, firstRank_spec r⟩
  · obtain ⟨i, hi, heq⟩ := mem_image.1 hmem
    exact absurd (firstRank_le heq) (not_le.2 (mem_range.1 hi))

theorem collect_eq (hn : 2 ≤ n) (hr : rank < n) : collectClusterInfos allData n rank =
    ⟨if 1 < (vendors allData n).card then .hybrid else .homo, rank - firstRank allData rank, firstRank allData rank,
      (members allData n (allData rank)).card, (vendors allData (firstRank allData rank)).card, -1, (vendors allData n).card⟩ := by
  obtain ⟨m, rfl⟩ : ∃ m, n = m + 1 := ⟨n - 1, by omega⟩
  have hfirst : firstRank allData rank < m + 1 := (firstRank_le rfl).trans_lt hr
  have hlt := vendors_lt hfirst
  have h : Scanned allData rank (m + 1) _ := scanned rank m
  unfold collectClusterInfos
  rw [if_neg (by omega), Nat.add_sub_cancel]
  simp only [h.map, h.num, h.curr, h.homo, h.homoRoot, if_pos hfirst, if_pos hr]
  split_ifs
  · rfl
  · congr 1 <;> omega

theorem exists_vendor {c : Nat} (hc : c < (vendors allData n).card) :
    ∃ r < n, (vendors allData (firstRank allData r)).card = c := by
  induction n with
  | zero => exact absurd hc (Nat.not_lt_zero c)
  | succ n ih =>
    rw [vendors_succ] at hc
    by_cases hmem : allData n ∈ vendors allData n
    · rw [insert_eq_of_mem hmem] at hc
      exact (ih hc).imp fun r hr => ⟨hr.1.trans n.lt_succ_self, hr.2⟩
    · rw [card_insert_of_notMem hmem] at hc
      obtain hlt | rfl := Nat.lt_succ_iff_lt_or_eq.1 hc
      · exact (ih hlt).imp fun r hr => ⟨hr.1.trans n.lt_succ_self, hr.2⟩
      · exact ⟨n, n.lt_succ_self, by rw [firstRank_eq hmem]⟩

theorem clusterId_eq_iff :
    (vendors allData (firstRank allData r)).card = (vendors allData (firstRank allData rank)).card ↔ allData r = allData rank := by
  refine ⟨fun h => ?_, fun h => by rw [firstRank_congr h]⟩
  obtain hlt | heq | hgt := lt_trichotomy (firstRank allData r) (firstRank allData rank)
  · exact absurd h (vendors_lt hlt).ne
  · exact (firstRank_spec r).symm.trans ((congrArg allData heq).trans (firstRank_spec rank))
  · exact absurd h (vendors_lt hgt).ne'

end Values

/-! ## Consistency -/

section Consistent
variable {α : Type} [DecidableEq α] (allData : Nat → α) (n : Nat)

/-- The values of the ranks fit together. -/
structure Consistent : Prop where
  same : ∀ r < n, ∀ r' < n, (collectClusterInfos allData n r).clusterId = (collectClusterInfos allData n r').clusterId ↔
    allData r = allData r'
  ids : ∀ r < n, ∀ c, c < (collectClusterInfos allData n r).ncluster ↔ ∃ r' < n, (collectClusterInfos allData n r').clusterId = c
  sizes : ∀ r < n, (collectClusterInfos allData n r).homoRanks = ((range n).filter fun r' =>
    (collectClusterInfos allData n r').clusterId = (collectClusterInfos allData n r).clusterId).card
  bounds : ∀ r < n, 0 ≤ (collectClusterInfos allData n r).homoRank ∧
    (collectClusterInfos allData n r).homoRank < (collectClusterInfos allData n r).homoRanks
  increasing : ∀ r r', r < r' → r' < n →
    (collectClusterInfos allData n r).clusterId = (collectClusterInfos allData n r').clusterId →
    (collectClusterInfos allData n r).homoRank < (collectClusterInfos allData n r').homoRank
  onto : ∀ r < n, ∀ k < (collectClusterInfos allData n r).homoRanks, ∃ r' < n,
    (collectClusterInfos allData n r').clusterId = (collectClusterInfos allData n r).clusterId ∧
      (collectClusterInfos allData n r').homoRank = k
  root : ∀ r < n, (collectClusterInfos allData n r).homoRootRank < n ∧
    (collectClusterInfos allData n (collectClusterInfos allData n r).homoRootRank).clusterId =
      (collectClusterInfos allData n r).clusterId ∧
    (collectClusterInfos allData n (collectClusterInfos allData n r).homoRootRank).homoRank = 0
  equal : ∀ r < n, ∀ r' < n, (collectClusterInfos allData n r).type = (collectClusterInfos allData n r').type ∧
    (collectClusterInfos allData n r).ncluster = (collectClusterInfos allData n r').ncluster

/-- The ranks of a vendor stand next to each other. -/
def Contiguous : Prop := ∀ i j k, i ≤ j → j ≤ k → k < n → allData i = allData k → allData j = allData i

variable {allData n}

theorem mem_members {v : α} {r : Nat} : r ∈ members allData n v ↔ r < n ∧ allData r = v := by
  rw [members, mem_filter, mem_range]

theorem Consistent.contiguous (hn : 2 ≤ n) (h : Consistent allData n) : Contiguous allData n := by
  intro i j k hij hjk hk heq
  have hi : i ∈ members allData n (allData i) := mem_members.2 ⟨by omega, rfl⟩
  obtain ⟨hlast, hv⟩ := mem_members.1 (max'_mem _ ⟨i, hi⟩)
  generalize hmax : (members allData n (allData i)).max' ⟨i, hi⟩ = last at hlast hv
  have hbound := (h.bounds last hlast).2
  rw [collect_eq hn hlast, hv, firstRank_congr hv] at hbound
  have hfirst : firstRank allData i ≤ i := firstRank_le rfl
  have hsub : members allData n (allData i) ⊆ Icc (firstRank allData i) last := fun r hr =>
    mem_Icc.2 ⟨firstRank_le (mem_members.1 hr).2, hmax ▸ le_max' _ r hr⟩
  have hall : members allData n (allData i) = Icc (firstRank allData i) last := by
    refine eq_of_subset_of_card_le hsub ?_
    rw [Nat.card_Icc]
    simp only at hbound
    omega
  have hkle : k ≤ last := (mem_Icc.1 (hsub (mem_members.2 ⟨hk, heq.symm⟩))).2
  exact (mem_members.1 (hall ▸ mem_Icc.2 ⟨by omega, by omega⟩ : j ∈ members allData n (allData i))).2

theorem Contiguous.consistent (hn : 2 ≤ n) (h : Contiguous allData n) : Consistent allData n where
  same r hr r' hr' := by
    rw [collect_eq hn hr, collect_eq hn hr']
    exact clusterId_eq_iff
  ids r hr c := by
    rw [collect_eq hn hr]
    constructor
    · intro hc
      obtain ⟨r', hr', hid⟩ := exists_vendor hc
      exact ⟨r', hr', by rw [collect_eq hn hr']; exact hid⟩
    · rintro ⟨r', hr', rfl⟩
      rw [collect_eq hn hr']
      exact vendors_lt ((firstRank_le rfl).trans_lt hr')
  sizes r hr := by
    refine Eq.trans ?_ (congrArg card (filter_congr fun r' hr' => ?_) : (members allData n (allData r)).card = _)
    · rw [collect_eq hn hr]
    · rw [collect_eq hn (mem_range.1 hr'), collect_eq hn hr]
      exact clusterId_eq_iff.symm
  bounds r hr := by
    rw [collect_eq hn hr]
    have hfirst : firstRank allData r ≤ r := firstRank_le rfl
    have hsub : Icc (firstRank allData r) r ⊆ members allData n (allData r) := fun x hx => by
      obtain ⟨hx1, hx2⟩ := mem_Icc.1 hx
      exact mem_members.2 ⟨by omega, (h _ x r hx1 hx2 hr (firstRank_spec r)).trans (firstRank_spec r)⟩
    have hcard := card_le_card hsub
    rw [Nat.card_Icc] at hcard
    simp only
    omega
  increasing r r' hlt hr' hid := by
    rw [collect_eq hn (hlt.trans hr'), collect_eq hn hr'] at hid ⊢
    simp only [firstRank_congr (clusterId_eq_iff.1 hid)]
    omega
  onto r hr k hk := by
    rw [collect_eq hn hr] at hk ⊢
    simp only at hk
    have hmem : firstRank allData r + k ∈ members allData n (allData r) := by
      by_contra hnot
      have hsub : members allData n (allData r) ⊆ Ico (firstRank allData r) (firstRank allData r + k) := fun x hx => by
        obtain ⟨hx1, hx2⟩ := mem_members.1 hx
        refine mem_Ico.2 ⟨firstRank_le hx2, Nat.lt_of_not_le fun hle => hnot (mem_members.2 ⟨by omega, ?_⟩)⟩
        exact (h _ _ x (Nat.le_add_right ..) hle hx1 ((firstRank_spec r).trans hx2.symm)).trans (firstRank_spec r)
      have hcard := card_le_card hsub
      rw [Nat.card_Ico] at hcard
      omega
    obtain ⟨hlt, hv⟩ := mem_members.1 hmem
    refine ⟨_, hlt, ?_⟩
    rw [collect_eq hn hlt, firstRank_congr hv]
    exact ⟨rfl, by simp only; omega⟩
  root r hr := by
    have hlt : firstRank allData r < n := (firstRank_le rfl).trans_lt hr
    rw [collect_eq hn hr]
    rw [collect_eq hn hlt, firstRank_congr (firstRank_spec r)]
    exact ⟨hlt, rfl, sub_self _⟩
  equal r hr r' hr' := by
    rw [collect_eq hn hr, collect_eq hn hr']
    exact ⟨rfl, rfl⟩

end Consistent

/-- **Clusters of one vendor.** What the ranks compute fits together exactly when the ranks of each vendor are contiguous. -/
theorem clusters_consistent_iff {α : Type} [DecidableEq α] (allData : Nat → α) (n : Nat) (hn : 2 ≤ n) :
    Consistent allData n ↔ Contiguous allData n :=
  ⟨fun h => h.contiguous hn, fun h => h.consistent hn⟩

/-- Two ranks of one vendor and one of another. -/
theorem clusters_consistent_three : Consistent (fun r => decide (r < 2)) 3 :=
  (clusters_consistent_iff _ 3 (by decide)).2 fun i j k hij hjk hk h => by
    have := decide_eq_decide.1 h
    exact decide_eq_decide.2 (by omega)

/-- Where another vendor stands between them, the second rank of a cluster of two has number 2. -/
theorem interleaved_inconsistent : ¬ Consistent (fun r => decide (r = 1)) 3 := fun h =>
  absurd (h.bounds 2 (by decide)).2 (by decide)

end FlagCX.Cluster
