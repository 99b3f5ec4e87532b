import FlagCX.C2c.Constructor
import FlagCX.C2c.Strategy
import FlagCX.Result

/-!
# Reductions with a single NIC (`findStrategy`, the single-NIC branch)

Each cluster reduces to its first inter-rank, the representative, which sends the partial result to the other clusters. A
rank that receives takes the result of one cluster only: the slots of a cluster are its ranks other than the representative.

* `getPeerHomoRank`      : the slot that a source cluster has in a destination cluster.
* `Call.singleNicReduction` : the operations that the planner of a rank emits.
-/

namespace FlagCX.C2c
open List

/-- `peerOrdinal`: the clusters without the destination, numbered. -/
def peerOrdinal (sourceClusterId destinationClusterId : Int) : Int :=
  if sourceClusterId < destinationClusterId then sourceClusterId else sourceClusterId - 1

def getPeerHomoRank (representativeHomoRank sourceClusterId destinationClusterId destinationHomoRanks : Int) : Int :=
  if sourceClusterId < 0 ∨ destinationClusterId < 0 ∨ sourceClusterId = destinationClusterId ∨ destinationHomoRanks ≤ 0 ∨
      representativeHomoRank < 0 ∨ destinationHomoRanks ≤ representativeHomoRank then -1
  else if destinationHomoRanks - 1 ≤ peerOrdinal sourceClusterId destinationClusterId then -1
  else
    (representativeHomoRank - peerOrdinal sourceClusterId destinationClusterId - 1 + destinationHomoRanks).tmod
      destinationHomoRanks

namespace Comm

/-- `globalRank2HomoRank`: the place of a rank in its cluster. -/
def globalRank2HomoRank (comm : Comm) (r : Nat) : Int := r - comm.offset (comm.clusterIds r)

/-- `clusterInterRankList_[i][0]`. -/
def representative (comm : Comm) (i : Nat) : Nat := (comm.clusterInterRankList.getD i []).headD 0

/-- The slot of cluster `source` in cluster `destination`. -/
def peerSlot (comm : Comm) (source destination : Nat) : Int :=
  getPeerHomoRank (comm.globalRank2HomoRank (comm.representative destination)) source destination
    (comm.clusterSizes destination)

end Comm

namespace Call
variable (c : Call)

def nclusters : Nat := c.comm.clusterInterRankList.length

/-- The clusters whose ranks receive partial results: `firstCluster` to `lastCluster`. -/
def receivers : List Nat :=
  if c.commOp = .reduce then c.rootClusterId.toList else range c.nclusters

/-- Every receiving cluster has a rank for each cluster. -/
def checkSizes : Except Result Unit :=
  c.receivers.forM fun i => if c.comm.clusterSizes i < c.nclusters then throw .notSupported else pure ()

/-- The receive from cluster `j`. -/
def recvOps (j : Nat) : Except Result (List P2pOp) :=
  if c.isRootCluster ∨ c.commOp ≠ .reduce then
    if c.comm.peerSlot j c.clusterId < 0 then throw .notSupported
    else if c.comm.globalRank2HomoRank c.rank = c.comm.peerSlot j c.clusterId then
      pure [⟨c.rank, some (c.comm.representative j), 0, c.totalCount, true⟩]
    else pure []
  else pure []

def globalRankToSendToCluster (j : Nat) : Int :=
  c.comm.peerSlot c.clusterId j - c.comm.globalRank2HomoRank (c.comm.representative j) + c.comm.representative j

def sendOps (j : Nat) : Except Result (List P2pOp) :=
  if ¬ c.isRootCluster ∨ c.commOp ≠ .reduce then
    if c.comm.peerSlot c.clusterId j < 0 then throw .notSupported
    else if c.comm.globalRank2HomoRank c.rank =
        c.comm.globalRank2HomoRank (c.comm.representative c.clusterId) then
      if (c.commOp = .reduce ∧ some (c.comm.clusterIds (c.globalRankToSendToCluster j).toNat) = c.rootClusterId) ∨
          c.commOp = .allReduce ∨ c.commOp = .reduceScatter then
        pure [⟨c.rank, some (c.globalRankToSendToCluster j).toNat, 0, c.totalCount, false⟩]
      else pure []
    else pure []
  else pure []

/-- The body of the loop over the other clusters. -/
def peerOps (j : Nat) : Except Result (List P2pOp) :=
  if c.clusterId = j then pure []
  else do
    let recvs ← c.recvOps j
    let sends ← c.sendOps j
    return recvs ++ sends

/-- The single-NIC branch of `findStrategy` for a reduction: the operations of its hetero function. -/
def singleNicReduction : Except Result (List P2pOp) := do
  c.checkSizes
  let ops ← (range c.nclusters).mapM c.peerOps
  return ops.flatten

def on (rank : Nat) : Call := { c with rank := rank }

end Call

/-! ## Slots -/

section Slots
variable {rep source source' destination n : Int}

section

variable (h : 0 ≤ getPeerHomoRank rep source destination n)
include h

theorem getPeerHomoRank_eq : (0 ≤ source ∧ source ≠ destination ∧ rep < n) ∧
      (0 ≤ peerOrdinal source destination ∧ peerOrdinal source destination < n - 1) ∧
      getPeerHomoRank rep source destination n =
        if peerOrdinal source destination < rep then rep - peerOrdinal source destination - 1
        else rep - peerOrdinal source destination - 1 + n := by
  have hordinal : 0 ≤ source → 0 ≤ destination → source ≠ destination → 0 ≤ peerOrdinal source destination := by
    intro _ _ _
    rw [peerOrdinal]
    split_ifs <;> omega
  rw [getPeerHomoRank] at h ⊢
  by_cases hargs : source < 0 ∨ destination < 0 ∨ source = destination ∨ n ≤ 0 ∨ rep < 0 ∨ n ≤ rep
  · omega
  · by_cases hroom : n - 1 ≤ peerOrdinal source destination
    · omega
    · rw [if_neg hroom, Int.tmod_eq_emod_of_nonneg (by omega)]
      refine ⟨by omega, by omega, ?_⟩
      split_ifs with hlt
      · rw [Int.add_emod_right, Int.emod_eq_of_lt (by omega) (by omega)]
      · rw [Int.emod_eq_of_lt (by omega) (by omega)]

theorem getPeerHomoRank_spec :
    getPeerHomoRank rep source destination n < n ∧ getPeerHomoRank rep source destination n ≠ rep := by
  obtain ⟨hargs, hordinal, heq⟩ := getPeerHomoRank_eq h
  rw [heq]
  split_ifs <;> omega

theorem getPeerHomoRank_inj (heq : getPeerHomoRank rep source destination n = getPeerHomoRank rep source' destination n) :
    source = source' := by
  have h' := h
  rw [heq] at h'
  obtain ⟨hargs, hordinal, hvalue⟩ := getPeerHomoRank_eq h
  obtain ⟨hargs', hordinal', hvalue'⟩ := getPeerHomoRank_eq h'
  rw [hvalue, hvalue'] at heq
  have hordinals : peerOrdinal source destination = peerOrdinal source' destination := by split_ifs at heq <;> omega
  rw [peerOrdinal, peerOrdinal] at hordinals
  split_ifs at hordinals <;> omega

end

end Slots

/-! ## Plans -/

theorem mapM_eq_ok {ε α β : Type} {f : α → Except ε β} {g : α → β} (hg : ∀ a b, f a = .ok b → g a = b) {l : List α}
    {r : List β} : l.mapM f = .ok r ↔ (∀ a ∈ l, f a = .ok (g a)) ∧ r = l.map g := by
  induction l generalizing r with
  | nil =>
    constructor
    · intro h
      exact ⟨by simp, (Except.ok.inj h).symm⟩
    · rintro ⟨-, rfl⟩
      rfl
  | cons a l ih =>
    rw [mapM_cons, forall_mem_cons, map_cons]
    cases ha : f a with
    | error e =>
      constructor
      · intro h
        cases h
      · rintro ⟨⟨h, -⟩, -⟩
        cases h
    | ok b =>
      obtain rfl := hg a b ha
      cases hl : l.mapM f with
      | error e =>
        constructor
        · intro h
          cases h
        · rintro ⟨⟨-, h⟩, -⟩
          rw [ih.2 ⟨h, rfl⟩] at hl
          cases hl
      | ok rs =>
        obtain ⟨hall, rfl⟩ := ih.1 hl
        constructor
        · intro h
          exact ⟨⟨rfl, hall⟩, (Except.ok.inj h).symm⟩
        · rintro ⟨-, rfl⟩
          rfl

namespace Call
variable {c : Call} {ops : List P2pOp} {j : Nat}

/-- The operations for cluster `j`, where the plan succeeds. -/
def okOps (c : Call) (j : Nat) : List P2pOp := (c.peerOps j).toOption.getD []

theorem okOps_eq {b : List P2pOp} (h : c.peerOps j = .ok b) : c.okOps j = b := by
  rw [okOps, h]
  rfl

theorem singleNicReduction_eq_ok : c.singleNicReduction = .ok ops ↔
    c.checkSizes = .ok () ∧ (∀ j < c.nclusters, c.peerOps j = .ok (c.okOps j)) ∧
      ops = (range c.nclusters).flatMap c.okOps := by
  have hmap := fun r => mapM_eq_ok (f := c.peerOps) (g := c.okOps) (fun _ _ => okOps_eq) (l := range c.nclusters) (r := r)
  simp only [mem_range] at hmap
  rw [singleNicReduction]
  constructor
  · intro h
    cases hcheck : c.checkSizes with
    | error e =>
      rw [hcheck] at h
      cases h
    | ok u =>
      cases hr : (range c.nclusters).mapM c.peerOps with
      | error e =>
        rw [hcheck, hr] at h
        cases h
      | ok r =>
        rw [hcheck, hr] at h
        obtain ⟨hall, rfl⟩ := (hmap r).1 hr
        exact ⟨rfl, hall, (Except.ok.inj h).symm⟩
  · rintro ⟨hcheck, hall, rfl⟩
    rw [hcheck, (hmap _).2 ⟨hall, rfl⟩]
    rfl

theorem peerOps_eq_ok (h : c.peerOps j = .ok ops) : (c.clusterId = j ∧ ops = []) ∨
    (c.clusterId ≠ j ∧ ∃ recvs sends, c.recvOps j = .ok recvs ∧ c.sendOps j = .ok sends ∧ ops = recvs ++ sends) := by
  rw [peerOps] at h
  split_ifs at h with hj
  · exact .inl ⟨hj, (Except.ok.inj h).symm⟩
  · cases hr : c.recvOps j with
    | error e =>
      rw [hr] at h
      cases h
    | ok recvs =>
      cases hs : c.sendOps j with
      | error e =>
        rw [hr, hs] at h
        cases h
      | ok sends =>
        rw [hr, hs] at h
        exact .inr ⟨hj, recvs, sends, rfl, rfl, (Except.ok.inj h).symm⟩

def Receives (c : Call) (i : Nat) : Prop := c.commOp = .reduce → c.rootClusterId = some i

instance (c : Call) (i : Nat) : Decidable (c.Receives i) := inferInstanceAs (Decidable (_ → _))

/-- The planner of the rank sends its partial result to `x`: it is the representative of its cluster, the cluster of `x`
receives, and `x` is at the slot. -/
def Delivers (c : Call) (x : Nat) : Prop :=
  c.clusterId ≠ c.comm.clusterIds x ∧ c.rank = c.comm.representative c.clusterId ∧ c.Receives (c.comm.clusterIds x) ∧
    c.comm.globalRank2HomoRank x = c.comm.peerSlot c.clusterId (c.comm.clusterIds x)

instance (c : Call) (x : Nat) : Decidable (c.Delivers x) := inferInstanceAs (Decidable (_ ∧ _))

theorem recvOps_eq_ok {recvs : List P2pOp} (h : c.recvOps j = .ok recvs) :
    (c.isRootCluster ∨ c.commOp ≠ .reduce → 0 ≤ c.comm.peerSlot j c.clusterId) ∧
      recvs = if (c.isRootCluster ∨ c.commOp ≠ .reduce) ∧
          c.comm.globalRank2HomoRank c.rank = c.comm.peerSlot j c.clusterId then
        [⟨c.rank, some (c.comm.representative j), 0, c.totalCount, true⟩] else [] := by
  rw [recvOps] at h
  split_ifs at h with h1 h2 h3
  · rw [if_pos ⟨h1, h3⟩]
    exact ⟨fun _ => not_lt.1 h2, (Except.ok.inj h).symm⟩
  · rw [if_neg fun h => h3 h.2]
    exact ⟨fun _ => not_lt.1 h2, (Except.ok.inj h).symm⟩
  · rw [if_neg fun h => h1 h.1]
    exact ⟨fun h => absurd h h1, (Except.ok.inj h).symm⟩

theorem sendOps_eq_ok {sends : List P2pOp} (h : c.sendOps j = .ok sends) :
    (¬ c.isRootCluster ∨ c.commOp ≠ .reduce → 0 ≤ c.comm.peerSlot c.clusterId j) ∧
      sends = if (¬ c.isRootCluster ∨ c.commOp ≠ .reduce) ∧ c.comm.globalRank2HomoRank c.rank =
            c.comm.globalRank2HomoRank (c.comm.representative c.clusterId) ∧
          ((c.commOp = .reduce ∧
            some (c.comm.clusterIds (c.globalRankToSendToCluster j).toNat) = c.rootClusterId) ∨
            c.commOp = .allReduce ∨ c.commOp = .reduceScatter) then
        [⟨c.rank, some (c.globalRankToSendToCluster j).toNat, 0, c.totalCount, false⟩] else [] := by
  rw [sendOps] at h
  split_ifs at h with h1 h2 h3 h4
  · rw [if_pos ⟨h1, h3, h4⟩]
    exact ⟨fun _ => not_lt.1 h2, (Except.ok.inj h).symm⟩
  · rw [if_neg fun h => h4 h.2.2]
    exact ⟨fun _ => not_lt.1 h2, (Except.ok.inj h).symm⟩
  · rw [if_neg fun h => h3 h.2.1]
    exact ⟨fun _ => not_lt.1 h2, (Except.ok.inj h).symm⟩
  · rw [if_neg fun h => h1 h.1]
    exact ⟨fun h => absurd h h1, (Except.ok.inj h).symm⟩

end Call

/-! ## Representatives -/

namespace Comm
variable {comm : Comm} {i r r' : Nat}

theorem getD_mem (hi : i < comm.clusterInterRankList.length) :
    comm.clusterInterRankList.getD i [] ∈ comm.clusterInterRankList := by
  have heq : comm.clusterInterRankList.getD i [] = comm.clusterInterRankList[i] := by simp [getD, hi]
  rw [heq]
  exact getElem_mem hi

section

variable (ht : comm.Topology) (hi : i < comm.clusterInterRankList.length)
include ht hi

theorem representative_mem : comm.representative i ∈ comm.clusterInterRankList.getD i [] := by
  have hne := ht.nonempty _ (getD_mem hi)
  rw [representative]
  cases hl : comm.clusterInterRankList.getD i [] with
  | nil => exact absurd hl hne
  | cons a l => exact mem_cons_self

theorem representative_spec : comm.clusterIds (comm.representative i) = i ∧ comm.representative i < comm.nranks := by
  have hmem := representative_mem ht hi
  exact ⟨comm.member i _ hmem, ht.lt_nranks _ (getD_mem hi) _ hmem⟩

end

theorem eq_of_homoRank (hid : comm.clusterIds r = comm.clusterIds r')
    (h : comm.globalRank2HomoRank r = comm.globalRank2HomoRank r') : r = r' := by
  rw [globalRank2HomoRank, globalRank2HomoRank, hid] at h
  omega

theorem rank_at (ht : comm.Topology) (hi : i < comm.clusterInterRankList.length) {v : Int} (hv : 0 ≤ v)
    (hlt : v < comm.clusterSizes i) :
    comm.clusterIds (v + comm.offset i).toNat = i ∧ comm.globalRank2HomoRank (v + comm.offset i).toNat = v := by
  have hid : comm.clusterIds (v + comm.offset i).toNat = i := ht.ids i hi _ (by omega) (by omega)
  refine ⟨hid, ?_⟩
  rw [globalRank2HomoRank, hid]
  omega

end Comm

namespace Call
variable {c : Call} {ops : List P2pOp} {j x : Nat}

theorem clusterId_lt (hc : c.Admitted) : c.clusterId < c.nclusters := (hc.topology.mem_cluster hc.rank_lt).2.2

theorem globalRankToSendToCluster_spec (hc : c.Admitted) (hj : j < c.nclusters) (hslot : 0 ≤ c.comm.peerSlot c.clusterId j) :
    c.comm.clusterIds (c.globalRankToSendToCluster j).toNat = j ∧
      c.comm.globalRank2HomoRank (c.globalRankToSendToCluster j).toNat = c.comm.peerSlot c.clusterId j := by
  have hrep := (Comm.representative_spec hc.topology hj).1
  have hglobal : c.globalRankToSendToCluster j = c.comm.peerSlot c.clusterId j + c.comm.offset j := by
    rw [globalRankToSendToCluster, Comm.globalRank2HomoRank, hrep]
    omega
  rw [hglobal]
  exact Comm.rank_at hc.topology hj hslot (getPeerHomoRank_spec hslot).1

theorem flatMap_range_single {α : Type} {f : Nat → List α} {n b : Nat} (hb : b < n) (h : ∀ j < n, j ≠ b → f j = []) :
    (range n).flatMap f = f b := by
  induction n with
  | zero => exact absurd hb (Nat.not_lt_zero b)
  | succ n ih =>
    rw [range_succ, flatMap_append, flatMap_singleton]
    by_cases hbn : b = n
    · subst hbn
      have hnil : (range b).flatMap f = [] := by
        rw [flatMap_eq_nil_iff]
        intro j hj
        have hjb := mem_range.1 hj
        exact h j (by omega) (by omega)
      rw [hnil, nil_append]
    · rw [ih (by omega) fun j hj hne => h j (by omega) hne, h n (by omega) (Ne.symm hbn), append_nil]

theorem opSends_flatMap (x n : Nat) (f : Nat → List P2pOp) :
    opSends x ((range n).flatMap f) = (range n).flatMap fun j => opSends x (f j) := by
  rw [opSends, filter_flatMap, map_flatMap]
  rfl

theorem opRecvs_flatMap (x n : Nat) (f : Nat → List P2pOp) :
    opRecvs x ((range n).flatMap f) = (range n).flatMap fun j => opRecvs x (f j) := by
  rw [opRecvs, filter_flatMap, map_flatMap]
  rfl

theorem opSends_append (x : Nat) (l l' : List P2pOp) : opSends x (l ++ l') = opSends x l ++ opSends x l' := by
  rw [opSends, filter_append, map_append]
  rfl

theorem opRecvs_append (x : Nat) (l l' : List P2pOp) : opRecvs x (l ++ l') = opRecvs x l ++ opRecvs x l' := by
  rw [opRecvs, filter_append, map_append]
  rfl

theorem sends_of_receives (hj : c.clusterId ≠ j) (h : c.Receives j) : ¬ c.isRootCluster ∨ c.commOp ≠ .reduce := by
  by_cases hop : c.commOp = .reduce
  · refine .inl ?_
    rw [isRootCluster, h hop]
    simpa using Ne.symm hj
  · exact .inr hop

theorem opSends_okOps (hc : c.Admitted) (hred : c.commOp.reduces = true) (hj : j < c.nclusters)
    (hok : c.peerOps j = .ok (c.okOps j)) :
    opSends x (c.okOps j) = if c.comm.clusterIds x = j ∧ c.Delivers x then [(0, c.totalCount)] else [] := by
  rcases peerOps_eq_ok hok with ⟨hid, hops⟩ | ⟨hid, recvs, sends, hrecvs, hsends, hops⟩
  · rw [hops, if_neg]
    · rfl
    · rintro ⟨hx, hdel⟩
      exact hdel.1 (hid.trans hx.symm)
  · obtain ⟨-, hrecvs⟩ := recvOps_eq_ok hrecvs
    obtain ⟨hslot, hsends⟩ := sendOps_eq_ok hsends
    have hnone : opSends x recvs = [] := by
      rw [hrecvs]
      split_ifs <;> rfl
    rw [hops, opSends_append, hnone, nil_append, hsends]
    have hrep := (Comm.representative_spec hc.topology (clusterId_lt hc)).1
    split_ifs with hcond hdel hdel
    · -- the operation is there, and `x` is its peer
      obtain ⟨hid', hhomo⟩ := globalRankToSendToCluster_spec hc hj (hslot hcond.1)
      have hx : x = (c.globalRankToSendToCluster j).toNat :=
        Comm.eq_of_homoRank (hdel.1.trans hid'.symm) (by rw [hdel.2.2.2.2, hhomo, hdel.1])
      simp [opSends, hx]
    · obtain ⟨hid', hhomo⟩ := globalRankToSendToCluster_spec hc hj (hslot hcond.1)
      have hx : x ≠ (c.globalRankToSendToCluster j).toNat := by
        rintro rfl
        refine hdel ⟨hid', ?_, ?_, ?_, ?_⟩
        · rw [hid']
          exact hid
        · exact Comm.eq_of_homoRank hrep.symm hcond.2.1
        · intro hop
          rcases hcond.2.2 with ⟨-, hroot⟩ | hop' | hop'
          · rw [← hroot, hid']
          · rw [hop] at hop'
            cases hop'
          · rw [hop] at hop'
            cases hop'
        · rw [hid']
          exact hhomo
      simp [opSends, Ne.symm hx]
    · refine absurd ?_ hcond
      obtain ⟨hx, hne, hrank, hreceives, hhomo⟩ := hdel
      rw [hx] at hreceives
      have hsend := sends_of_receives hid hreceives
      obtain ⟨hid', -⟩ := globalRankToSendToCluster_spec hc hj (hslot hsend)
      refine ⟨hsend, by rw [← hrank], ?_⟩
      by_cases hop : c.commOp = .reduce
      · exact .inl ⟨hop, by rw [hid', hreceives hop]⟩
      · refine .inr ?_
        simpa [CommOp.reduces, hop] using hred
    · rfl

theorem opRecvs_okOps (hc : c.Admitted) (hj : j < c.nclusters) (hok : (c.on x).peerOps j = .ok ((c.on x).okOps j)) :
    opRecvs c.rank ((c.on x).okOps j) = if c.clusterId = j ∧ c.Delivers x then [(0, c.totalCount)] else [] := by
  rcases peerOps_eq_ok hok with ⟨hid, hops⟩ | ⟨hid, recvs, sends, hrecvs, hsends, hops⟩
  · rw [hops, if_neg]
    · rfl
    · rintro ⟨hj', hdel⟩
      exact hdel.1 (hj'.trans hid.symm)
  · obtain ⟨-, hrecvs⟩ := recvOps_eq_ok hrecvs
    obtain ⟨-, hsends⟩ := sendOps_eq_ok hsends
    have hnone : opRecvs c.rank sends = [] := by
      rw [hsends]
      split_ifs <;> rfl
    rw [hops, opRecvs_append, hnone, append_nil, hrecvs]
    have hrep := (Comm.representative_spec hc.topology hj).1
    have hroot : (c.on x).isRootCluster ∨ (c.on x).commOp ≠ .reduce ↔ c.Receives (c.comm.clusterIds x) := by
      by_cases hop : c.commOp = .reduce
      · have hop' : (c.on x).commOp = .reduce := hop
        simp [hop', Receives, hop, isRootCluster]
        rfl
      · have hop' : (c.on x).commOp ≠ .reduce := hop
        simp [hop', Receives, hop]
    split_ifs with hcond hdel hdel
    · have hrank : c.rank = c.comm.representative j := by rw [← hdel.1, ← hdel.2.2.1]
      simp [opRecvs, hrank, on, totalCount]
      rfl
    · have hrank : c.comm.representative j ≠ c.rank := by
        intro heq
        have hidj : c.clusterId = j := by rw [clusterId, ← heq, hrep]
        exact hdel ⟨hidj, by rw [hidj]; exact Ne.symm hid, by rw [hidj, heq], hroot.1 hcond.1, by rw [hidj]; exact hcond.2⟩
      have hrank' : ((c.on x).comm.representative j == c.rank) = false := beq_eq_false_iff_ne.2 hrank
      simp [opRecvs, hrank']
    · refine absurd ⟨hroot.2 hdel.2.2.2.1, ?_⟩ hcond
      rw [← hdel.1]
      exact hdel.2.2.2.2
    · rfl

theorem peerSlot_nonneg (hok : c.singleNicReduction = .ok ops) (hrecv : c.Receives c.clusterId) (hj : j < c.nclusters)
    (hne : j ≠ c.clusterId) : 0 ≤ c.comm.peerSlot j c.clusterId := by
  obtain ⟨-, hall, -⟩ := singleNicReduction_eq_ok.1 hok
  rcases peerOps_eq_ok (hall j hj) with ⟨hid, -⟩ | ⟨-, recvs, -, hrecvs, -⟩
  · exact absurd hid.symm hne
  · refine (recvOps_eq_ok hrecvs).1 ?_
    by_cases hop : c.commOp = .reduce
    · exact .inl (by rw [isRootCluster, hrecv hop]; simp)
    · exact .inr hop

end Call

/-- In the plans of a reduction with a single NIC, what the planner of a rank sends to `x` is what the planner of `x` receives
from that rank: the whole buffer once, from the representative of a cluster to its slot. -/
theorem singleNic_matches {c : Call} {x : Nat} {ops opsOf : List P2pOp} (hc : c.Admitted) (hred : c.commOp.reduces = true)
    (hx : x < c.comm.nranks) (hok : c.singleNicReduction = .ok ops) (hokx : (c.on x).singleNicReduction = .ok opsOf) :
    (c.Receives (c.comm.clusterIds x) → ∀ j < c.nclusters, j ≠ c.comm.clusterIds x →
      0 ≤ c.comm.peerSlot j (c.comm.clusterIds x) ∧
      c.comm.peerSlot j (c.comm.clusterIds x) < c.comm.clusterSizes (c.comm.clusterIds x) ∧
      c.comm.peerSlot j (c.comm.clusterIds x) ≠ c.comm.globalRank2HomoRank (c.comm.representative (c.comm.clusterIds x)) ∧
      ∀ j', c.comm.peerSlot j (c.comm.clusterIds x) = c.comm.peerSlot j' (c.comm.clusterIds x) → j = j') ∧
    opSends x ops = opRecvs c.rank opsOf ∧
    opSends x ops = if c.Delivers x then [(0, c.totalCount)] else [] := by
  obtain ⟨-, hall, hops⟩ := Call.singleNicReduction_eq_ok.1 hok
  obtain ⟨-, hallx, hopsx⟩ := Call.singleNicReduction_eq_ok.1 hokx
  have hxid : c.comm.clusterIds x < c.nclusters := (hc.topology.mem_cluster hx).2.2
  have hsends : opSends x ops = if c.Delivers x then [(0, c.totalCount)] else [] := by
    rw [hops, Call.opSends_flatMap, Call.flatMap_range_single hxid]
    · rw [Call.opSends_okOps hc hred hxid (hall _ hxid)]
      simp
    · intro j hj hne
      rw [Call.opSends_okOps hc hred hj (hall j hj), if_neg fun h => hne h.1.symm]
  have hrecvs : opRecvs c.rank opsOf = if c.Delivers x then [(0, c.totalCount)] else [] := by
    have hid := Call.clusterId_lt hc
    have hlen : (c.on x).nclusters = c.nclusters := rfl
    rw [hopsx, Call.opRecvs_flatMap, hlen, Call.flatMap_range_single hid]
    · rw [Call.opRecvs_okOps hc hid (hallx _ hid)]
      simp
    · intro j hj hne
      rw [Call.opRecvs_okOps hc hj (hallx j hj), if_neg fun h => hne h.1.symm]
  refine ⟨?_, hsends.trans hrecvs.symm, hsends⟩
  intro hreceives j hj hne
  have hslot : 0 ≤ c.comm.peerSlot j (c.comm.clusterIds x) := Call.peerSlot_nonneg hokx hreceives hj hne
  obtain ⟨hlt, hrep⟩ := getPeerHomoRank_spec hslot
  refine ⟨hslot, hlt, hrep, ?_⟩
  intro j' heq
  exact_mod_cast getPeerHomoRank_inj hslot heq

/-- Two clusters of two ranks; the representative of the second is its last rank. -/
def oneNicComm : Comm where
  clusterInterRankList := [[0], [3]]
  clusterIds r := if r < 2 then 0 else 1
  clusterSizes _ := 2
  nranks := 4
  member := member_two (by decide) (by decide)
  nodup := nodup_two (by decide) (by decide)

theorem oneNicComm_topology : oneNicComm.Topology := ⟨by decide, by decide, rfl, by decide, Comm.ids_two 2 rfl rfl rfl⟩

/-- Rank 0 of an all-reduce on them sends to rank 2. -/
theorem singleNic_matches_oneNic : ∃ ops opsOf,
    (Call.mk oneNicComm .allReduce 4 none 0 .coarse false).singleNicReduction = .ok ops ∧
    (Call.mk oneNicComm .allReduce 4 none 2 .coarse false).singleNicReduction = .ok opsOf ∧
    opSends 2 ops = [(0, 4)] ∧ opRecvs 0 opsOf = [(0, 4)] := by
  have hc : (Call.mk oneNicComm .allReduce 4 none 0 .coarse false).Admitted :=
    ⟨oneNicComm_topology, by decide, by decide, rfl, fun r h => by cases h⟩
  refine ⟨_, _, rfl, rfl, ?_⟩
  obtain ⟨-, heq, hsends⟩ := singleNic_matches (x := 2) hc rfl (by decide) rfl rfl
  exact ⟨hsends, heq.symm.trans hsends⟩

end FlagCX.C2c
