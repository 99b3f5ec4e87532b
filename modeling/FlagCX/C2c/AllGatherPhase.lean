import Mathlib.Algebra.Order.BigOperators.Group.List
import FlagCX.C2c.Termination

/-!
# The all-gather phase of a pipelined all-reduce

Between the two searches of a loop `findStrategy` takes the ranges that an inter-rank keeps for its own cluster out of its
list and pushes each of them once for every other cluster. It does not push them on the list of that inter-rank but on the
one of its number in the cluster plus the first rank of the cluster.

* `gathered` : what is pushed on a list; `Requeues` : each inter-rank gets what it kept, and the search places all of it.
* `allGather_requeued_iff` : when the ranges come back and all of them are placed, for the calls that `execute` admits.
-/

namespace FlagCX.C2c
open List

def Call.clusterCountValid (c : Call) : Bool :=
  !(c.commOp == .allReduce || c.commOp == .reduceScatter) ||
    c.comm.clusterInterRankList.all fun l =>
      !(decide (l.length < c.comm.clusterInterRankList.length) && decide (2 < c.comm.clusterInterRankList.length) &&
        decide (1 < l.length))

namespace Planner

/-- What the re-queueing of loop `i` leaves on a list: the sends that the first search did not place. -/
def leftOver (p : Planner) (m : BufferInfos) (i : Nat) (key : Nat × Nat) : List BufferInfo :=
  (p.refresh2 (p.firstRound m i) key).filter fun e => !e.isScheduled

/-- What the re-queueing of loop `i` pushes on a list. -/
def gathered (p : Planner) (m : BufferInfos) (i : Nat) (key : Nat × Nat) : List BufferInfo :=
  (p.secondLists m i key).drop (p.leftOver m i key).length

/-- The scheduled local pieces of a list when the re-queueing of loop `i` reaches it. -/
def localPieces (p : Planner) (m : BufferInfos) (i : Nat) (key : Nat × Nat) : List BufferInfo :=
  heldOf (p.refresh2 (p.firstRound m i) key)

/-- The all-gather phase of loop `i`: what is pushed on the list of an inter-rank is what it held, for each other cluster,
and the search that follows leaves no element of it waiting. -/
structure Requeues (p : Planner) (m : BufferInfos) (i : Nat) : Prop where
  own : ∀ j < p.nclusters, ∀ r ∈ p.ranks j, ∀ z,
    (p.gathered m i (j, r)).filter (fun e => e.clusterIdToSend = z) =
      if z < p.nclusters ∧ z ≠ j then
        (p.localPieces m i (j, r)).map fun e => sendInfo e.offset e.count z false
      else []
  scheduled : ∀ j < p.nclusters, ∀ r ∈ p.ranks j, ∀ e ∈ p.gathered m i (j, r), ∀ x, e.Contains x →
    pendingAt e.clusterIdToSend x (p.secondRound m i (j, r)) = 0

def OnFirstRanks (p : Planner) : Prop :=
  ∀ i < p.nclusters, ∀ j < (p.ranks i).length, (p.ranks i).getD j 0 = j + p.clusterOffset i

/-- Two inter-ranks in every cluster, and a block that they cannot share evenly. -/
def Crowded (p : Planner) : Prop := (∀ z < p.nclusters, (p.ranks z).length = 2) ∧ ∃ z < p.nclusters, p.Remainder z

instance (p : Planner) : Decidable p.OnFirstRanks := inferInstanceAs (Decidable (∀ _ < _, ∀ _ < _, _))

instance (p : Planner) : Decidable p.Crowded := inferInstanceAs (Decidable (_ ∧ ∃ _ < _, _))

end Planner

/-! ## What is pushed -/

variable {key at' : Nat × Nat}

section Pushed
variable {p : Planner} {m : BufferInfos} {i : Nat}

theorem gathered_apply (hkey : p.isInterRank key) : p.gathered m i key = p.arrivals m key := by
  have hleft : p.leftOver m i key = (p.firstRound m i key).filter fun e => !e.isScheduled && e.peerRank.isNone := by
    rw [Planner.leftOver, Planner.refresh2, if_pos hkey, filter_filter]
  rw [Planner.gathered, hleft, secondLists_apply hkey]
  exact drop_left

theorem localPieces_apply (key : Nat × Nat) : p.localPieces m i key = heldOf (m key) :=
  (heldOf_refresh2 key).trans (heldOf_search key)

theorem filter_regathered (i z : Nat) (e : BufferInfo) :
    (p.regathered i e).filter (fun f => f.clusterIdToSend = z) =
      if z < p.nclusters ∧ z ≠ i then [Planner.sendInfo e.offset e.count z false] else [] := by
  have hdst : ∀ c, (Planner.sendInfo e.offset e.count c false).clusterIdToSend = c := fun _ => rfl
  unfold Planner.regathered
  rw [filter_map]
  simp only [Function.comp_def, hdst]
  rw [filter_filter]
  split_ifs with hz
  · have hone : ((List.range p.nclusters).filter fun c => decide (c = z) && decide (c ≠ i)) = [z] := by
      refine perm_singleton.1 ?_
      rw [perm_ext_iff_of_nodup (nodup_range.filter _) (nodup_singleton _)]
      intro c
      simp only [mem_filter, mem_range, Bool.and_eq_true, decide_eq_true_eq, mem_singleton]
      constructor
      · exact fun h => h.2.1
      · rintro rfl
        exact ⟨hz.1, rfl, hz.2⟩
    rw [hone]
    rfl
  · rw [map_eq_nil_iff, filter_eq_nil_iff]
    intro c hc
    simp only [Bool.and_eq_true, decide_eq_true_eq, not_and]
    rintro rfl hne
    exact hz ⟨mem_range.1 hc, hne⟩

theorem filter_pushesOf (at' : Nat × Nat) (z : Nat) :
    (p.pushesOf m at').filter (fun f => f.clusterIdToSend = z) =
      if z < p.nclusters ∧ z ≠ at'.1 then
        (heldOf (m (p.ownKey at'))).map fun e => Planner.sendInfo e.offset e.count z false
      else [] := by
  rw [Planner.pushesOf, filter_flatMap]
  simp only [filter_regathered]
  split_ifs
  · rw [map_eq_flatMap]
  · exact flatMap_eq_nil_iff.2 fun _ _ => rfl

theorem Planner.OnFirstRanks.ownKey (hk : p.OnFirstRanks) (hat : at' ∈ p.places) : p.ownKey at' = p.pushKey at' := by
  obtain ⟨hi, hj⟩ := mem_places.1 hat
  unfold Planner.ownKey Planner.pushKey
  rw [hk at'.1 hi at'.2 hj]

theorem gathered_own (hk : p.OnFirstRanks) (hat : at' ∈ p.places) : p.gathered m i (p.ownKey at') = p.pushesOf m at' := by
  rw [gathered_apply (ownKey_isInterRank hat), hk.ownKey hat, arrivals_pushKey hat]

end Pushed

/-! ## The first piece of a share -/

variable {z : Nat}

section Pieces
variable {p : Planner}

theorem dvd_foldl_lcm (l : List Nat) (a : Nat) : a ∣ l.foldl Nat.lcm a ∧ ∀ n ∈ l, n ∣ l.foldl Nat.lcm a := by
  induction l generalizing a with
  | nil => exact ⟨dvd_refl a, fun n hn => absurd hn not_mem_nil⟩
  | cons b l ih =>
    obtain ⟨h1, h2⟩ := ih (Nat.lcm a b)
    refine ⟨(Nat.dvd_lcm_left a b).trans h1, fun n hn => ?_⟩
    rcases mem_cons.1 hn with rfl | hn
    · exact (Nat.dvd_lcm_right a n).trans h1
    · exact h2 n hn

theorem length_le_lcm (hacc : p.accepted) {i : Nat} (hi : i < p.nclusters) : (p.ranks i).length ≤ p.lcm := by
  refine Nat.le_of_dvd (Nat.pos_of_ne_zero hacc.1) ((dvd_foldl_lcm _ 1).2 _ (mem_map.2 ⟨p.ranks i, ?_, rfl⟩))
  rw [Planner.ranks, getD_eq_getElem _ _ hi]
  exact getElem_mem hi

theorem count_first (hp : p.TwoPhases) {i j : Nat} (hat : (i, j) ∈ p.places) (hz : z < p.nclusters) :
    (1 + if j = p.nClusterInterRanks i - 1 ∧ 0 < p.blockCount z % p.nClusterInterRanks i then 1 else 0) ≤
      (p.pipelineInfos i j z).countP fun e => decide (e.Contains (p.shareOffset i z j)) := by
  obtain ⟨hi, hj⟩ := mem_places.1 hat
  rw [← hp.nClusterInterRanks] at hj
  have hmin : 0 < p.blockCount z / p.lcm := pos_of_ne_zero ((hp.accepted.2 hp.pipelined).2 z hz)
  have hle : p.blockCount z / p.lcm ≤ p.blockCount z / p.nClusterInterRanks i := by
    refine Nat.div_le_div_left ?_ (Nat.zero_lt_of_lt hj)
    rw [hp.nClusterInterRanks]
    exact length_le_lcm hp.accepted hi
  have hstart : p.clusterOffset z * (p.totalCount / p.comm.nranks) +
      p.totalCount / p.comm.nranks * p.comm.clusterSizes z / p.nClusterInterRanks i * j = p.shareOffset i z j := by
    unfold Planner.shareOffset
    rw [if_pos hj]
    rfl
  unfold Planner.pipelineInfos
  simp only [hstart]
  rw [countP_append]
  refine Nat.add_le_add ?_ ?_
  · refine countP_pos_iff.2 ⟨_, mem_map.2 ⟨0, mem_range.2 (Nat.div_pos hle hmin), rfl⟩, ?_⟩
    rw [decide_eq_true_iff]
    exact ⟨le_rfl, Nat.lt_add_of_pos_right hmin⟩
  · change _ ≤ List.countP _ (if j = p.nClusterInterRanks i - 1 ∧ 0 < p.blockCount z % p.nClusterInterRanks i then _ else _)
    split_ifs with hlast
    · rw [countP_singleton, if_pos]
      rw [decide_eq_true_iff]
      exact ⟨Nat.le_refl _, Nat.lt_add_of_pos_right hlast.2⟩
    · exact Nat.zero_le _

end Pieces

/-! ## The lists of the holders -/

section Own
variable {p : Planner} {m : BufferInfos} {i : Nat}

theorem own_of_firstRanks (hk : p.OnFirstRanks) {j r : Nat} (hr : r ∈ p.ranks j) (z : Nat) :
    (p.gathered m i (j, r)).filter (fun e => e.clusterIdToSend = z) =
      if z < p.nclusters ∧ z ≠ j then
        (p.localPieces m i (j, r)).map fun e => Planner.sendInfo e.offset e.count z false
      else [] := by
  obtain ⟨at', hat, hkey⟩ := exists_ownKey (show p.isInterRank (j, r) from hr)
  obtain ⟨rfl, rfl⟩ := Prod.mk.inj hkey
  rw [show ((at'.1, (p.ranks at'.1).getD at'.2 0) : Nat × Nat) = p.ownKey at' from rfl, gathered_own hk hat,
    filter_pushesOf, localPieces_apply]

theorem firstRanks_of_own (hp : p.TwoPhases) (h : p.refresh1 = some m) (htwo : 2 ≤ p.nclusters)
    (hown : p.Requeues m i) : p.OnFirstRanks := by
  intro j hj k hk
  have hat : (j, k) ∈ p.places := mem_places.2 ⟨hj, hk⟩
  -- a destination other than the own cluster
  obtain ⟨z, hz, hne⟩ : ∃ z < p.nclusters, z ≠ j := by
    by_cases h0 : j = 0
    · exact ⟨1, htwo, by omega⟩
    · exact ⟨0, by omega, fun he => h0 he.symm⟩
  have hcount := count_first hp hat hj
  obtain ⟨e, he, hx⟩ := countP_pos_iff.1 ((Nat.le_add_right 1 _).trans hcount)
  have hx := of_decide_eq_true hx
  have hheld : e ∈ p.localPieces m i (p.ownKey (j, k)) := by
    rw [localPieces_apply, heldOf_refresh1 hp h hat]
    exact he
  have hpush := hown.own j hj _ (ownKey_isInterRank hat) z
  rw [if_pos ⟨hz, hne⟩] at hpush
  have hpushed : Planner.sendInfo e.offset e.count z false ∈
      (p.gathered m i (j, (p.ownKey (j, k)).2)).filter fun e => e.clusterIdToSend = z := by
    rw [hpush]
    exact mem_map.2 ⟨e, hheld, rfl⟩
  have hmem : _ ∈ p.gathered m i (p.ownKey (j, k)) := (mem_filter.1 hpushed).1
  rw [gathered_apply (ownKey_isInterRank hat)] at hmem
  obtain ⟨⟨j', k'⟩, hat', hkey, e', he', c, -, -, heq⟩ := mem_arrivals hmem
  obtain ⟨rfl, hr⟩ := Prod.mk.inj hkey
  rw [heldOf_refresh1 hp h hat'] at he'
  -- both ranges cover the first element of the share of number `k`, so `k'` is `k`
  have hx' : e'.Contains (p.shareOffset j' j' k) := by
    obtain ⟨ho, hc, -⟩ := BufferInfo.mk.inj heq
    unfold BufferInfo.Contains at hx ⊢
    rw [← ho, ← hc]
    exact hx
  have hshare := (pipelineInfos_fresh hp hat hj he).2 _ hx
  have hshare' := (pipelineInfos_fresh hp hat' hj he').2 _ hx'
  rw [← hr, (hshare.unique hshare').2]

end Own

/-! ## The second search -/

def Blocked (p : Planner) (m : BufferInfos) : Prop :=
  ∀ key, ∀ e ∈ m key, e.isScheduled = false → e.peerRank = none ∧ ∃ b, ∀ x, e.Contains x → p.InBlock b x

variable {x : Nat}

section Blocks
variable {p : Planner} {m : BufferInfos} {searchMethod loopId : Nat}

theorem Blocked.search (h : Blocked p m) : Blocked p (searchHeteroSendRecvOps p searchMethod loopId ⟨m, []⟩).infos := by
  refine search_induct (P := fun s => Blocked p s.infos) ?_ h
  intro job s k s' k' _ hs hv
  refine hv.entries ?_ ?_ ?_ ?_ hs
  · exact fun _ _ _ _ h => absurd h (by simp [recvInfo])
  · exact fun _ _ _ _ h => absurd h (by simp)
  · exact fun _ _ _ _ _ _ h => absurd h (by simp)
  · intro _ e offset count h hw hlo hhi _
    obtain ⟨-, b, hb⟩ := h hw
    refine ⟨rfl, b, fun x hx => hb x ⟨?_, ?_⟩⟩
    · exact hlo.trans hx.1
    · exact lt_of_lt_of_le hx.2 hhi

theorem blocked_refresh1 (hp : p.TwoPhases) (h : p.refresh1 = some m) : Blocked p m := by
  intro key e he _
  obtain ⟨i, hi, j, hj, z, hz, rfl, hinit⟩ := (mem_refresh1 h).1 he
  rw [Planner.initialInfos, if_pos hp.pipelined] at hinit
  rw [hp.nClusterInterRanks] at hj
  obtain ⟨hf, hin⟩ := pipelineInfos_fresh hp (mem_places.2 ⟨hi, hj⟩) hz hinit
  exact ⟨hf.peer, z, fun x hx => (hin x hx).inBlock⟩

theorem blocked_secondLists (hp : p.TwoPhases) (hready : Ready p m) (h : p.refresh1 = some m) :
    Blocked p (p.secondLists m loopId) := by
  intro key e he hs
  rcases mem_secondLists he with he | he
  · exact (blocked_refresh1 hp h).search key e he hs
  · obtain ⟨at', hat, -, e', he', c, -, -, rfl⟩ := mem_arrivals he
    exact ⟨rfl, at'.1, fun x hx => ((sourced_refresh1 hp hready h).held at' hat e' he' x hx).inBlock⟩

theorem inBlock_of_covered (hp : p.TwoPhases) (h : p.refresh1 = some m) (hx : covered z x (m key) ≠ 0) : p.InBlock z x := by
  obtain ⟨e, he, -, hdst, hex⟩ := exists_of_covered hx
  obtain ⟨i, hi, j, hj, z', hz', rfl, hinit⟩ := (mem_refresh1 h).1 he
  rw [Planner.initialInfos, if_pos hp.pipelined] at hinit
  rw [hp.nClusterInterRanks] at hj
  obtain ⟨hf, hin⟩ := pipelineInfos_fresh hp (mem_places.2 ⟨hi, hj⟩) hz' hinit
  rw [← hdst, hf.dst]
  exact (hin x hex).inBlock

theorem pendingAt_refresh1 (hp : p.TwoPhases) (h : p.refresh1 = some m) (hat : at' ∈ p.places) (hz : z < p.nclusters) (hne : at'.1 ≠ z) (x : Nat) :
    pendingAt z x (m (p.ownKey at')) = (p.pipelineInfos at'.1 at'.2 z).countP fun e => decide (e.Contains x) := by
  have hsends : unplaced z (m (p.ownKey at')) = p.pipelineInfos at'.1 at'.2 z := by
    rw [refresh1_list hp h hat, unplaced, filter_flatMap,
      flatMap_single (x := z) (mem_range.2 hz) nodup_range]
    · refine filter_eq_self.2 fun e he => ?_
      obtain ⟨hf, -⟩ := pipelineInfos_fresh hp hat hz he
      simp [hf.scheduled, hf.send, hf.dst, hne]
    · intro z' hz' hne'
      refine filter_eq_nil_iff.2 fun e he => ?_
      obtain ⟨hf, -⟩ := pipelineInfos_fresh hp hat (mem_range.1 hz') he
      simp [hf.dst, hne']
  rw [pendingAt, hsends]

end Blocks

section Search
variable {p : Planner} {m : BufferInfos} {i : Nat}

theorem exists_pending (hd : Directed p m) (h : 0 < pending p m z x) :
    ∃ key, p.isInterRank key ∧ key.1 ≠ z ∧ ∃ e ∈ unplaced z (m key), e.Contains x := by
  have hne := pos_iff_ne_zero.1 h
  unfold pending at hne
  rw [Ne, List.sum_eq_zero_iff_forall_eq_nat, not_forall] at hne
  obtain ⟨v, hv⟩ := hne
  rw [Classical.not_imp] at hv
  obtain ⟨hv, hv0⟩ := hv
  obtain ⟨key, hkey, rfl⟩ := mem_map.1 hv
  obtain ⟨e, he, hx⟩ := countP_pos_iff.1 (pos_of_ne_zero hv0)
  obtain ⟨hmem, hw⟩ := mem_unplaced.1 he
  exact ⟨key, mem_keys.1 hkey, fun hk => ((hd key e hmem).2 hw.1).1 (hw.2.2.trans hk.symm), e, he, of_decide_eq_true hx⟩

theorem pending_refresh1 (hp : p.TwoPhases) (h : p.refresh1 = some m) (htwo : p.nclusters ≤ 2) (hz : z < p.nclusters) (x : Nat) : pending p m z x ≤ 2 := by
  have hplace : ∀ key ∈ p.keys, pendingAt z x (m key) ≠ 0 →
      ∃ at' ∈ p.places, p.ownKey at' = key ∧ at'.1 ≠ z ∧ p.InShare at'.1 z at'.2 x := by
    intro key hkey h0
    obtain ⟨at', hat, rfl⟩ := exists_ownKey (mem_keys.1 hkey)
    obtain ⟨e, he, hx⟩ := countP_pos_iff.1 (pos_of_ne_zero h0)
    obtain ⟨hmem, hw⟩ := mem_unplaced.1 he
    rw [refresh1_list hp h hat] at hmem
    obtain ⟨z', hz', hmem⟩ := mem_flatMap.1 hmem
    obtain ⟨hf, hin⟩ := pipelineInfos_fresh hp hat (mem_range.1 hz') hmem
    obtain rfl : z' = z := hf.dst.symm.trans hw.2.2
    refine ⟨at', hat, rfl, fun heq => ?_, hin x (of_decide_eq_true hx)⟩
    have hs := hf.scheduled
    rw [hw.1, heq, beq_self_eq_true] at hs
    exact absurd hs (by decide)
  refine sum_le_of_unique (keys_nodup p) (fun a ha b hb ha0 hb0 => ?_) fun key hkey => ?_
  · obtain ⟨⟨k, j⟩, hat, rfl, hk, hin⟩ := hplace a ha ha0
    obtain ⟨⟨k', j'⟩, hat', rfl, hk', hin'⟩ := hplace b hb hb0
    have h1 := (mem_places.1 hat).1
    have h2 := (mem_places.1 hat').1
    obtain rfl : k = k' := by omega
    obtain rfl : j = j' := (hin.unique hin').2
    rfl
  · by_cases h0 : pendingAt z x (m key) = 0
    · rw [h0]
      exact Nat.zero_le _
    · obtain ⟨at', hat, rfl, hk, -⟩ := hplace key hkey h0
      rw [pendingAt_refresh1 hp h hat hz hk]
      refine (count_pipelineInfos p at'.1 at'.2 z x).trans ?_
      split_ifs <;> omega

section

variable (hp : p.TwoPhases) (hready : Ready p m) (h : p.refresh1 = some m)
include hp hready h

theorem first_clears (htwo : p.nclusters ≤ 2) {w b : Nat} (hw : w < p.nclusters) (hne : z ≠ w)
    (hthree : 3 ≤ (p.ranks w).length) (hb : b ∈ p.ranks z) : unplaced w (p.firstRound m i (z, b)) = [] := by
  rw [eq_nil_iff_forall_not_mem]
  intro e he
  refine search_clears (X := fun _ => True) hready.noRecv hready.positive hb
    (ne_nil_of_length_pos (by omega)) hne (fun x _ => ?_) he trivial
  have h1 := holders_refresh1 h w x
  have h2 := pending_refresh1 hp h htwo hw x
  omega

theorem second_room (hvalid : ∀ z < p.nclusters, p.nclusters ≤ 2 ∨ p.nclusters ≤ (p.ranks z).length) (hfree : ¬ p.Crowded)
    {w : Nat} (hw : w < p.nclusters) (hz : z < p.nclusters) (hne : w ≠ z) (hx : p.InBlock w x) :
    holders p (p.secondLists m i) z x + pending p (p.secondLists m i) z x ≤ (p.ranks z).length := by
  have hpend := pending_secondLists i hp hready h hx hne hz
  have hmixed := mixed_secondLists i hp (sourced_refresh1 hp hready h)
  have hhold := holders_of_sends hmixed.sends z x
  have htwo := hp.two_le z hz
  by_cases hrem : p.Remainder w
  · rw [if_pos hrem] at hpend
    by_cases hthree : 3 ≤ (p.ranks z).length
    · omega
    · -- with two inter-ranks there are two clusters, and `w` has more of them
      have hn : p.nclusters ≤ 2 := by
        rcases hvalid z hz with hn | hn <;> omega
      have hw3 : 3 ≤ (p.ranks w).length := by
        have := hp.two_le w hw
        by_contra hlt
        refine hfree ⟨fun v hv => ?_, w, hw, hrem⟩
        obtain rfl | rfl : v = w ∨ v = z := by omega
        · omega
        · omega
      have hnone : holders p (p.secondLists m i) z x = 0 := by
        refine countP_eq_zero.2 fun b hb hh => ?_
        obtain ⟨v, hv⟩ := holds_iff.1 hh
        obtain ⟨hvz, hs⟩ := hmixed.sends z b v x hb hv
        obtain ⟨e, he, hsend, hdst, hex⟩ := exists_of_covered hv
        rw [secondLists_apply (show p.isInterRank (z, b) from hb)] at he
        rcases mem_append.1 he with he | he
        · obtain ⟨hmem, hwait⟩ := mem_filter.1 he
          simp only [Bool.and_eq_true, Bool.not_eq_true'] at hwait
          have hvn : v < p.nclusters := hdst ▸ ((hready.directed.search (z, b) e hmem).2 hwait.1).2
          obtain rfl : v = w := by omega
          have hnil := first_clears (i := i) hp hready h hn hw hvz.symm hw3 hb
          rw [eq_nil_iff_forall_not_mem] at hnil
          exact hnil e (mem_unplaced.2 ⟨hmem, hwait.1, hsend, hdst⟩)
        · obtain ⟨at', hat, hkey, e', he', c, -, -, rfl⟩ := mem_arrivals he
          have hin := ((sourced_refresh1 hp hready h).held at' hat e' he' x hex).inBlock
          have hat1 : at'.1 = z := (Prod.mk.inj hkey).1
          exact hne (hx.unique (hat1 ▸ hin))
      omega
  · rw [if_neg hrem] at hpend
    omega

theorem second_clears {w a : Nat} (hz : z < p.nclusters) (hne : w ≠ z) (ha : a ∈ p.ranks w) (hx : p.InBlock w x)
    (hroom : ∀ y, p.InBlock w y → holders p (p.secondLists m i) z y + pending p (p.secondLists m i) z y ≤ (p.ranks z).length) :
    pendingAt z x (p.secondRound m i (w, a)) = 0 := by
  have hmixed := mixed_secondLists i hp (sourced_refresh1 hp hready h)
  have htwo := hp.two_le z hz
  refine countP_eq_zero.2 fun e he hex => ?_
  have hex := of_decide_eq_true hex
  obtain ⟨hmem, hwait⟩ := mem_unplaced.1 he
  refine search_clears (X := p.InBlock w) hmixed.ready.noRecv hmixed.ready.positive ha
    (ne_nil_of_length_pos (by omega)) hne hroom he ?_
  obtain ⟨-, b, hb⟩ := (blocked_secondLists hp hready h).search (w, a) e hmem hwait.1
  have hpos : 0 < e.count := hmixed.ready.positive.search (w, a) e hmem
  rw [hx.unique (hb x hex)]
  exact hb _ (contains_offset hpos)

end

theorem pendingAt_le_pending (hkey : p.isInterRank key) (z x : Nat) : pendingAt z x (m key) ≤ pending p m z x :=
  le_sum_of_mem (mem_map.2 ⟨key, mem_keys.2 hkey, rfl⟩)

theorem holders_pos {b : Nat} (hb : b ∈ p.ranks z) {e : BufferInfo} (he : e ∈ m (z, b)) (hs : e.isRecv = false)
    (hx : e.Contains x) : 0 < holders p m z x := by
  refine countP_pos_iff.2 ⟨b, hb, any_eq_true.2 ⟨e, he, ?_⟩⟩
  simp [hs, hx]

/-- **Two inter-ranks in every cluster cannot take what two clusters send over a remainder.** -/
theorem second_leaves (hp : p.TwoPhases) (hready : Ready p m) (h : p.refresh1 = some m) (hk : p.OnFirstRanks)
    (htwo : p.nclusters = 2) (hcrowd : p.Crowded) : ¬ p.Requeues m i := by
  intro hreq
  obtain ⟨hlen, w, hw, hrem⟩ := hcrowd
  obtain ⟨z, hz, hne⟩ : ∃ z < p.nclusters, z ≠ w := ⟨1 - w, by omega, by omega⟩
  have hsourced := sourced_refresh1 hp hready h
  have hmixed := mixed_secondLists i hp hsourced
  have hn : ∀ v < p.nclusters, p.nClusterInterRanks v = 2 := fun v hv => by rw [hp.nClusterInterRanks, hlen v hv]
  have hatw : (w, 1) ∈ p.places := mem_places.2 ⟨hw, (hlen w hw).symm ▸ one_lt_two⟩
  have hatz : (z, 1) ∈ p.places := mem_places.2 ⟨hz, (hlen z hz).symm ▸ one_lt_two⟩
  -- the first element of the last share of the block of `w` is the same for both clusters
  obtain ⟨s, hs⟩ : ∃ s, s = p.shareOffset w w 1 := ⟨_, rfl⟩
  have hsz : p.shareOffset z w 1 = s := by rw [hs, Planner.shareOffset, Planner.shareOffset, hn z hz, hn w hw]
  have htwice : ∀ v < p.nclusters, (v, 1) ∈ p.places → p.shareOffset v w 1 = s →
      2 ≤ (p.pipelineInfos v 1 w).countP fun e => decide (e.Contains s) := by
    intro v hv hat hvs
    have := count_first hp hat hw
    rw [Planner.Remainder, hlen w hw] at hrem
    rw [hn v hv, if_pos ⟨rfl, hrem⟩, hvs] at this
    exact this
  have hheld := htwice w hw hatw hs.symm
  have hsent := htwice z hz hatz hsz
  obtain ⟨e₀, he₀, hx₀⟩ := countP_pos_iff.1 (lt_of_lt_of_le Nat.two_pos hheld)
  have hx₀ := of_decide_eq_true hx₀
  obtain ⟨hf₀, hin₀⟩ := pipelineInfos_fresh hp hatw hw he₀
  have hblock : p.InBlock w s := (hin₀ s hx₀).inBlock
  -- the first search
  have hfirst : 0 < pending p (p.firstRound m i) w s := by
    refine pending_search_pos hready.noRecv ?_
    have hmem : e₀ ∈ m (p.ownKey (w, 1)) := by
      rw [refresh1_list hp h hatw]
      exact mem_flatMap.2 ⟨w, mem_range.2 hw, he₀⟩
    have h1 : 0 < holders p m w s := holders_pos (ownKey_isInterRank hatw) hmem hf₀.send hx₀
    have h2 : 2 ≤ pending p m w s := by
      refine le_trans ?_ (pendingAt_le_pending (ownKey_isInterRank hatz) w s)
      rw [pendingAt_refresh1 hp h hatz hw hne]
      exact hsent
    have := hlen w hw
    omega
  obtain ⟨⟨z', b⟩, hkey, hne', e₁, he₁, hx₁⟩ := exists_pending hready.directed.search hfirst
  obtain rfl : z' = z := by
    have := lt_nclusters hkey
    omega
  obtain ⟨hmem₁, hwait₁⟩ := mem_unplaced.1 he₁
  -- the second search
  have hsecond : 0 < pending p (p.secondRound m i) z' s := by
    refine pending_search_pos hmixed.ready.noRecv ?_
    have hleft : e₁ ∈ p.secondLists m i (z', b) := by
      rw [secondLists_apply hkey]
      refine mem_append_left _ (mem_filter.2 ⟨hmem₁, ?_⟩)
      rw [hwait₁.1, ((blocked_refresh1 hp h).search _ e₁ hmem₁ hwait₁.1).1]
      rfl
    have h1 : 0 < holders p (p.secondLists m i) z' s := holders_pos (show b ∈ p.ranks z' from hkey) hleft hwait₁.2.1 hx₁
    have h2 : 2 ≤ pending p (p.secondLists m i) z' s := by
      refine le_trans ?_ (pendingAt_le_pending (ownKey_isInterRank hatw) z' s)
      rw [secondLists_apply (ownKey_isInterRank hatw), pendingAt_append, ← gathered_apply (i := i) (ownKey_isInterRank hatw),
        gathered_own hk hatw, pendingAt_pushesOf m hz hne, heldOf_refresh1 hp h hatw]
      exact Nat.le_add_left_of_le hheld
    have := hlen z' hz
    omega
  obtain ⟨⟨w', a⟩, hkey', hne'', e₂, he₂, hx₂⟩ := exists_pending hmixed.ready.directed.search hsecond
  obtain rfl : w' = w := by
    have := lt_nclusters hkey'
    omega
  -- it comes from what the re-queueing pushed
  obtain ⟨hmem₂, hwait₂⟩ := mem_unplaced.1 he₂
  have hcov : covered z' s (p.secondLists m i (w', a)) ≠ 0 := by
    rw [← covered_search p 1 0]
    refine pos_iff_ne_zero.1 (countP_pos_iff.2 ⟨e₂, hmem₂, ?_⟩)
    simp [hwait₂.2.1, hwait₂.2.2, hx₂]
  obtain ⟨f, hf, hsend, hdst, hfx⟩ := exists_of_covered hcov
  rw [secondLists_apply hkey'] at hf
  rcases mem_append.1 hf with hf | hf
  · have hcov' : covered z' s (m (w', a)) ≠ 0 := by
      rw [← covered_search p 1 i]
      refine pos_iff_ne_zero.1 (countP_pos_iff.2 ⟨f, (mem_filter.1 hf).1, ?_⟩)
      simp [hsend, hdst, hfx]
    exact hne (hblock.unique (inBlock_of_covered hp h hcov')).symm
  · rw [← gathered_apply (i := i) hkey'] at hf
    have hzero := hreq.scheduled w' hw a hkey' f hf s hfx
    rw [hdst] at hzero
    exact pos_iff_ne_zero.1 (pendingAt_pos he₂ hx₂) hzero

end Search

/-! ## The calls that `execute` admits -/

section Calls
variable {p : Planner} {m : BufferInfos} {i : Nat}

theorem requeues_of_firstRanks (hp : p.TwoPhases) (hready : Ready p m) (h : p.refresh1 = some m)
    (hvalid : ∀ z < p.nclusters, p.nclusters ≤ 2 ∨ p.nclusters ≤ (p.ranks z).length) (hk : p.OnFirstRanks)
    (hfree : ¬ p.Crowded) : p.Requeues m i where
  own _ _ _ hr z := own_of_firstRanks hk hr z
  scheduled j hj r hr e he x hx := by
    rw [gathered_apply (show p.isInterRank (j, r) from hr)] at he
    obtain ⟨at', hat, hkey, e', he', c, hc, hne, rfl⟩ := mem_arrivals he
    have hat1 : at'.1 = j := (Prod.mk.inj hkey).1
    have hin := ((sourced_refresh1 hp hready h).held at' hat e' he' x hx).inBlock
    rw [hat1] at hin
    exact second_clears hp hready h hc hne.symm hr hin fun y hy => second_room hp hready h hvalid hfree hj hc hne.symm hy

theorem Mixed.requeues (h : Mixed p m) : p.Requeues m i := by
  have hnone : ∀ key, p.isInterRank key → p.gathered m i key = [] := by
    intro key hkey
    rw [gathered_apply hkey, eq_nil_iff_forall_not_mem]
    intro e he
    obtain ⟨at', hat, -, e', he', -⟩ := mem_arrivals he
    rw [h.held _ (ownKey_isInterRank hat)] at he'
    exact absurd he' not_mem_nil
  constructor
  · intro j _ r hr z
    rw [hnone (j, r) hr, localPieces_apply, h.held (j, r) hr]
    split_ifs <;> rfl
  · intro j _ r hr e he
    rw [hnone (j, r) hr] at he
    exact absurd he not_mem_nil

theorem Call.reachesSearch_of_twoPhase {c : Call} (ht : c.planner.twoPhase = true) : c.reachesSearch = true := by
  have hop : c.commOp = .allReduce := by simpa using (Bool.and_eq_true_iff.1 ht).1
  have hpipe : c.pipe.isSome = true := (Bool.and_eq_true_iff.1 ht).2
  unfold Call.pipe pipeSteps at hpipe
  unfold Call.reachesSearch Call.multiNicBranch
  rw [hop] at hpipe ⊢
  revert hpipe
  cases c.ring <;> cases c.multiNic <;> simp

theorem Call.clusterCountValid_le {c : Call} (hv : c.clusterCountValid = true) (ht : c.planner.twoPhase = true)
    (hp : c.planner.TwoPhases) (hz : z < c.planner.nclusters) :
    c.planner.nclusters ≤ 2 ∨ c.planner.nclusters ≤ (c.planner.ranks z).length := by
  have hop : c.commOp = .allReduce := by simpa using (Bool.and_eq_true_iff.1 ht).1
  unfold Call.clusterCountValid at hv
  rw [hop] at hv
  simp only [beq_self_eq_true, Bool.true_or, Bool.not_true, Bool.false_or, all_eq_true] at hv
  have hl := hv _ (Call.ranks_mem hz)
  have htwo := hp.two_le z hz
  have hnc : c.planner.nclusters = c.comm.clusterInterRankList.length := rfl
  rw [← hnc] at hl
  by_contra hn
  rw [not_or, not_le, not_le] at hn
  simp only [hn.1, hn.2, decide_true, Bool.true_and, Bool.not_eq_true', decide_eq_false_iff_not] at hl
  omega

end Calls

def lastRanksComm : Comm where
  clusterInterRankList := [[1, 2], [4, 5]]
  clusterIds r := if r < 3 then 0 else 1
  clusterSizes _ := 3
  nranks := 6
  member := member_two (by decide) (by decide)
  nodup := nodup_two (by decide) (by decide)

def lastRanksCall : Call := ⟨lastRanksComm, .allReduce, 12, none, 0, .coarse, true⟩

theorem lastRanksCall_admitted : lastRanksCall.Admitted where
  topology := ⟨by decide, by decide, rfl, by decide, Comm.ids_two 3 rfl rfl rfl⟩
  collective := by decide
  rank_lt := by decide
  root_isSome := rfl
  root_lt r h := absurd h (by simp [lastRanksCall])

/-- Rank 1 keeps the first share of its cluster; the range is pushed on the list of rank 0, which has no NIC. -/
theorem allGather_not_requeued : ¬ ∀ (c : Call), c.Admitted → c.planner.twoPhase = true → c.clusterCountValid = true →
    ∀ m₀, c.planner.refresh1 = some m₀ → ∀ i m, c.planner.loopStart m₀ i = some m → c.planner.Requeues m i := by
  intro hall
  have h := (hall lastRanksCall lastRanksCall_admitted (by decide) (by decide) _ rfl 0 _ rfl).own 0 (by decide) 1
    (by decide) 1
  revert h
  decide +kernel

/-- **The all-gather phase of a pipelined all-reduce** re-queues every kept range at its holder and places all of them if and
only if the inter-ranks are the first ranks of their clusters and there are not just two of them in each cluster with a block
that they cannot share evenly. -/
theorem allGather_requeued_iff {c : Call} (ha : c.Admitted) (ht : c.planner.twoPhase = true)
    (hv : c.clusterCountValid = true) {m₀ : BufferInfos} (h : c.planner.refresh1 = some m₀) :
    (∀ i m, c.planner.loopStart m₀ i = some m → c.planner.Requeues m i) ↔ c.planner.OnFirstRanks ∧ ¬ c.planner.Crowded := by
  have hs := Call.reachesSearch_of_twoPhase ht
  have hp := ha.twoPhases hs (accepted_of_refresh1 h) ht
  have hready := ready_refresh1 ha hs h
  have hvalid : ∀ z < c.planner.nclusters, c.planner.nclusters ≤ 2 ∨ c.planner.nclusters ≤ (c.planner.ranks z).length :=
    fun z hz => Call.clusterCountValid_le hv ht hp hz
  have htwo : 2 ≤ c.planner.nclusters := ha.topology.clusters
  constructor
  · intro hall
    have hreq := hall 0 m₀ rfl
    have hk := firstRanks_of_own hp h htwo hreq
    refine ⟨hk, fun hcrowd => second_leaves hp hready h hk ?_ hcrowd hreq⟩
    have h0 := hvalid 0 (by omega)
    have hlen := hcrowd.1 0 (by omega)
    omega
  · rintro ⟨hk, hfree⟩ i m hl
    by_cases hi : i = 0
    · subst hi
      obtain rfl := Option.some.inj hl
      exact requeues_of_firstRanks hp hready h hvalid hk hfree
    · exact (((ready_loopStart ha hs h hl).2 ht).2 hi).requeues

def firstRanksComm : Comm where
  clusterInterRankList := [[0, 1], [3, 4]]
  clusterIds r := if r < 3 then 0 else 1
  clusterSizes _ := 3
  nranks := 6
  member := member_two (by decide) (by decide)
  nodup := nodup_two (by decide) (by decide)

/-- Twelve elements: the blocks of six are shared evenly. -/
def firstRanksCall : Call := ⟨firstRanksComm, .allReduce, 12, none, 0, .coarse, true⟩

theorem allGather_requeued_firstRanks : ∃ m₀, firstRanksCall.planner.refresh1 = some m₀ ∧
    (∀ i m, firstRanksCall.planner.loopStart m₀ i = some m → firstRanksCall.planner.Requeues m i) ∧
    firstRanksCall.planner.gathered m₀ 0 (0, 1) = [Planner.sendInfo 3 3 1 false] := by
  have ha : firstRanksCall.Admitted :=
    ⟨⟨by decide, by decide, rfl, by decide, Comm.ids_two 3 rfl rfl rfl⟩, by decide, by decide, rfl,
      fun r h => absurd h (by simp [firstRanksCall])⟩
  refine ⟨_, rfl, ?_, by decide +kernel⟩
  exact (allGather_requeued_iff ha (by decide) (by decide) rfl).2 ⟨by decide +kernel, by decide +kernel⟩

end FlagCX.C2c
