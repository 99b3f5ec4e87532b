import FlagCX.C2c.Shares
import Mathlib.Data.List.GetD

/-!
# Rounds of a planner that reaches the search

* `Ready` : the lists on which a round makes progress. Each cluster that a range waits for has more inter-ranks than
  there are sends of its own over any element of the range (`Spare`).
* `Ready.progress` : such a round schedules something unless nothing waits.
* `ready_refresh1` : the lists of `refresh(1)` are of this kind for every call that reaches the search.
-/

namespace FlagCX.C2c
open List

theorem Visited.entries {p : Planner} {loopId : Nat} {job : Job} {s s' : SearchState} {k k' : Nat}
    {P : Nat × Nat → BufferInfo → Prop} (hrecv : ∀ key offset count a, P key (recvInfo offset count a loopId))
    (hwhole : ∀ key e b, P key e → P key { e with isScheduled := true, peerRank := some b, loopId := some loopId })
    (hpiece : ∀ key e offset count b, P key e → P key ⟨offset, count, e.clusterIdToSend, false, true, some b, some loopId⟩)
    (hrest : ∀ key e offset count, P key e → e.isScheduled = false → e.offset ≤ offset →
      offset + count ≤ e.offset + e.count → P key ⟨offset, count, e.clusterIdToSend, false, false, none, none⟩)
    (h : ∀ key, ∀ e ∈ s.infos key, P key e) (hv : Visited p loopId job s k s' k') :
    ∀ key, ∀ e ∈ s'.infos key, P key e := by
  cases hv with
  | skip hk => exact h
  | @place b offset count _ it pre post l hk hlist hw hb hfits hrep hcut =>
    have hit : P (job.src, job.rank p) it := h _ it (by simp [hlist])
    have hold : ∀ e ∈ pre ++ post, P (job.src, job.rank p) e := by
      intro e he
      refine h _ e ?_
      rw [hlist]
      rcases mem_append.1 he with he | he
      · exact mem_append_left _ he
      · exact mem_append_right _ (mem_cons_of_mem _ he)
    intro key e he
    rw [place_infos] at he
    split_ifs at he with h1 h2
    · subst h1
      cases hrep with
      | whole ho hc =>
        rcases mem_append.1 he with he | he
        · exact hold e (mem_append_left _ he)
        · rcases mem_cons.1 he with rfl | he
          · exact hwhole _ it b hit
          · exact hold e (mem_append_right _ he)
      | piece mode hpos hlt ho =>
        rcases mem_append.1 he with he | he
        · exact hold e he
        · rcases mem_cons.1 he with rfl | he
          · exact hpiece _ it _ _ b hit
          · obtain rfl := mem_singleton.1 he
            refine hrest _ it _ _ hit hw.1 ?_ ?_ <;> cases mode <;> simp only [PushMode.restOffset] <;> omega
    · rcases mem_append.1 he with he | he
      · exact h key e he
      · obtain rfl := mem_singleton.1 he
        exact hrecv key _ _ _
    · exact h key e he

/-- A receive is scheduled, and what waits is to be sent to another cluster. -/
def Directed (p : Planner) (m : BufferInfos) : Prop :=
  ∀ key, ∀ e ∈ m key, (e.isRecv = true → e.isScheduled = true) ∧
    (e.isScheduled = false → e.clusterIdToSend ≠ key.1 ∧ e.clusterIdToSend < p.nclusters)

/-- The cluster a range is sent to has an inter-rank at which no send of its own is over it. -/
def Spare (p : Planner) (m : BufferInfos) : Prop :=
  ∀ j z a x, j ≠ z → a ∈ p.ranks j → covered z x (m (j, a)) ≠ 0 → holders p m z x < (p.ranks z).length

/-- The lists on which a round makes progress. -/
structure Ready (p : Planner) (m : BufferInfos) : Prop where
  noRecv : NoRecv m
  positive : Positive m
  directed : Directed p m
  spare : Spare p m

variable {e : BufferInfo} {z : Nat}

section Ready
variable {p : Planner} {searchMethod loopId : Nat} {m : BufferInfos}

theorem Directed.search (h : Directed p m) : Directed p (searchHeteroSendRecvOps p searchMethod loopId ⟨m, []⟩).infos := by
  refine search_induct (P := fun s => Directed p s.infos) ?_ h
  intro job s k s' k' _ hs hv
  refine hv.entries ?_ ?_ ?_ ?_ hs
  · exact fun _ _ _ _ => ⟨fun _ => rfl, fun h => absurd h (by simp [recvInfo])⟩
  · exact fun _ _ _ _ => ⟨fun _ => rfl, fun h => absurd h (by simp)⟩
  · exact fun _ _ _ _ _ _ => ⟨fun _ => rfl, fun h => absurd h (by simp)⟩
  · exact fun _ e _ _ h hw _ _ => ⟨fun h => absurd h (by simp), fun _ => h.2 hw⟩

theorem scheduleCompleted_iff (hpos : Positive m) (hd : Directed p m) : p.scheduleCompleted m ↔ outstanding p m = 0 := by
  unfold outstanding outstandingAt
  simp only [List.sum_eq_zero_iff_forall_eq_nat, forall_mem_map, mem_filter, mem_keys]
  constructor
  · intro h key hkey e he
    have hs := h key.1 (lt_nclusters hkey) key.2 hkey e he.1
    simp [hs] at he
  · intro h j _ r hr e he
    cases hs : e.isScheduled with
    | true => rfl
    | false =>
      have hsend : e.isRecv = false := by
        cases hrecv : e.isRecv with
        | false => rfl
        | true => rw [(hd _ e he).1 hrecv] at hs; exact absurd hs (by decide)
      exact absurd (h (j, r) hr e ⟨he, by simp [hs, hsend]⟩) (Nat.pos_iff_ne_zero.1 (hpos _ e he))

theorem contains_offset (h : 0 < e.count) : e.Contains e.offset := ⟨le_rfl, Nat.lt_add_of_pos_right h⟩

theorem covered_ne_zero {l : List BufferInfo} (he : e ∈ unplaced z l) (hc : 0 < e.count) : covered z e.offset l ≠ 0 := by
  obtain ⟨hmem, hw⟩ := mem_unplaced.1 he
  refine Nat.pos_iff_ne_zero.1 (countP_pos_iff.2 ⟨e, hmem, ?_⟩)
  simp [hw.2.1, hw.2.2, contains_offset hc]

theorem Ready.roomy (h : Ready p m) : Roomy p m := by
  intro j z hne a ha e he
  have hc : 0 < e.count := h.positive _ e (mem_filter.1 he).1
  refine exists_free ?_
  rw [taken_noRecv h.noRecv, Nat.add_zero]
  exact h.spare j z a e.offset hne ha (covered_ne_zero he hc)

theorem Ready.waits (h : Ready p m) (hn : ¬ p.scheduleCompleted m) :
    ∃ j z, j ≠ z ∧ p.ranks z ≠ [] ∧ ∃ a ∈ p.ranks j, ∃ e, e ∈ unplaced z (m (j, a)) := by
  simp only [Planner.scheduleCompleted, not_forall] at hn
  obtain ⟨j, -, a, ha, e, he, hs⟩ := hn
  rw [Bool.not_eq_true] at hs
  have hsend : e.isRecv = false := by
    cases hrecv : e.isRecv with
    | false => rfl
    | true =>
      rw [(h.directed _ e he).1 hrecv] at hs
      exact absurd hs (by decide)
  have hmem : e ∈ unplaced e.clusterIdToSend (m (j, a)) := mem_unplaced.2 ⟨he, hs, hsend, rfl⟩
  have hne := ((h.directed _ e he).2 hs).1
  refine ⟨j, e.clusterIdToSend, hne.symm, ?_, a, ha, e, hmem⟩
  have := h.spare j _ a e.offset hne.symm ha (covered_ne_zero hmem (h.positive _ e he))
  exact ne_nil_of_length_pos (by omega)

/-- **A round schedules something unless nothing waits.** -/
theorem Ready.progress (h : Ready p m) (hn : ¬ p.scheduleCompleted m) :
    outstanding p (searchHeteroSendRecvOps p searchMethod loopId ⟨m, []⟩).infos < outstanding p m := by
  obtain ⟨j, z, hne, hz, a, ha, e, he⟩ := h.waits hn
  exact search_progress h.positive h.roomy ha hz hne he

theorem mem_refresh0 {key : Nat × Nat} (h : e ∈ p.refresh0 m key) : e ∈ m key := by
  unfold Planner.refresh0 at h
  split_ifs at h
  · exact (mem_filter.1 h).1
  · exact h

theorem outstanding_refresh0 (p : Planner) (m : BufferInfos) : outstanding p (p.refresh0 m) = outstanding p m := by
  unfold outstanding outstandingAt Planner.refresh0
  congr 1
  refine map_congr_left fun key _ => ?_
  split_ifs
  · rw [filter_filter]
    congr 3
    funext e
    cases e.isRecv <;> simp
  · rfl

theorem holders_congr {m' : BufferInfos} (h : ∀ z x key, covered z x (m' key) = covered z x (m key)) (z x : Nat) :
    holders p m' z x = holders p m z x := by
  unfold holders
  congr 1
  funext b
  exact holds_congr fun w => h w x (z, b)

theorem Ready.round (h : Ready p m) :
    Ready p (p.refresh0 (searchHeteroSendRecvOps p searchMethod loopId ⟨m, []⟩).infos) := by
  have hcov : ∀ z x key, covered z x (p.refresh0 (searchHeteroSendRecvOps p searchMethod loopId ⟨m, []⟩).infos key) =
      covered z x (m key) := by
    intro z x key
    rw [covered_refresh0, covered_search]
  refine ⟨h.noRecv.refresh0, ?_, ?_, ?_⟩
  · exact fun key e he => h.positive.search key e (mem_refresh0 he)
  · exact fun key e he => h.directed.search key e (mem_refresh0 he)
  · intro j z a x hne ha hx
    rw [hcov] at hx
    rw [holders_congr hcov]
    exact h.spare j z a x hne ha hx

end Ready

/-! ## The first round -/

section Initial
variable {p : Planner} {m : BufferInfos}

theorem fresh_of_mem (h : p.refresh1 = some m) {key : Nat × Nat} (he : e ∈ m key) :
    ∃ z < p.nclusters, ∃ scheduled, Fresh e z scheduled ∧
      (scheduled = false → key.1 ≠ z) ∧ (p.pipelined = false → scheduled = p.isScheduled key.1) := by
  have hacc : p.accepted := by
    unfold Planner.refresh1 at h
    split_ifs at h with hacc
    exact hacc
  obtain ⟨i, hi, j, hj, z, hz, rfl, hinit⟩ := (mem_refresh1 h).1 he
  unfold Planner.initialInfos at hinit
  split_ifs at hinit with hp
  · obtain ⟨hf, -⟩ := pipeline_range hacc hp hz hj hinit
    refine ⟨z, hz, _, hf, fun hs hiz => ?_, fun hn => absurd hp (by simp [hn])⟩
    simp [show i = z from hiz] at hs
  · obtain ⟨hne, -, hf, -⟩ := sequential_range hinit
    exact ⟨z, hz, _, hf, fun _ => hne, fun _ => rfl⟩

theorem positive_refresh1 (h : p.refresh1 = some m) : Positive m := by
  intro key e he
  obtain ⟨_, _, _, hf, _⟩ := fresh_of_mem h he
  exact hf.pos

theorem directed_refresh1 (h : p.refresh1 = some m) : Directed p m := by
  intro key e he
  obtain ⟨z, hz, scheduled, hf, hne, -⟩ := fresh_of_mem h he
  refine ⟨fun hr => absurd hf.send (by simp [hr]), fun hs => ?_⟩
  rw [hf.dst]
  exact ⟨(hne (hf.scheduled ▸ hs)).symm, hz⟩

end Initial

section Calls
variable {c : Call} {m : BufferInfos}

theorem Call.ranks_mem (hz : z < c.planner.nclusters) : c.planner.ranks z ∈ c.comm.clusterInterRankList := by
  have hz : z < c.comm.clusterInterRankList.length := hz
  rw [Call.planner_ranks, getD_eq_getElem _ _ hz]
  exact getElem_mem hz

theorem Call.Admitted.ranks_ne_nil (ha : c.Admitted) (hz : z < c.planner.nclusters) :
    c.planner.ranks z ≠ [] := ha.topology.nonempty _ (Call.ranks_mem hz)

theorem Call.Admitted.two_le (ha : c.Admitted) (hs : c.reachesSearch = true) (hr : c.commOp.reduces = true)
    (hz : z < c.planner.nclusters) : 2 ≤ (c.planner.ranks z).length := by
  have hmulti : c.multiNic = true := by
    unfold Call.reachesSearch Call.multiNicBranch at hs
    unfold CommOp.reduces at hr
    revert hs hr
    cases c.commOp <;> simp
  have hne : (c.planner.ranks z).length ≠ 1 := by
    simp only [Call.multiNic, multiNicOf, hr, if_true, Bool.and_eq_true, all_eq_true] at hmulti
    simpa using hmulti.1.1 _ (Call.ranks_mem hz)
  have := length_pos_of_ne_nil (ha.ranks_ne_nil hz)
  omega

theorem Call.Admitted.two_le_nranks (ha : c.Admitted) : 2 ≤ c.comm.nranks := by
  have hlt : ∀ i < 2, ∃ r < c.comm.nranks, c.comm.clusterIds r = i := by
    intro i hi
    have hi' : i < c.planner.nclusters := lt_of_lt_of_le hi ha.topology.clusters
    obtain ⟨r, hr⟩ := exists_mem_of_ne_nil _ (ha.ranks_ne_nil hi')
    exact ⟨r, ha.topology.lt_nranks _ (Call.ranks_mem hi') r hr, c.comm.member i r hr⟩
  obtain ⟨r, hr, h0⟩ := hlt 0 (by omega)
  obtain ⟨r', hr', h1⟩ := hlt 1 (by omega)
  have hne : r ≠ r' := by
    rintro rfl
    omega
  omega

theorem cluster_range {p : Planner} {i r x : Nat} (h : p.refresh1 = some m) (hp : p.pipelined = false)
    (he : e ∈ m (i, r)) (hx : e.Contains x) :
    p.isUseless i = false ∧ p.clusterBase i ≤ x ∧ x < p.clusterBase i + p.clusterCount i := by
  obtain ⟨j, hj, -, hr⟩ := range_of_mem h he hx
  rw [if_neg (by simp [hp])] at hr
  have hlast := rankOffset_last p i (by omega)
  have hmono := rankOffset_mono p i (show j + 1 ≤ p.nClusterInterRanks i from hj)
  exact ⟨hr.1, by omega, by omega⟩

section

variable {j a x : Nat} (ha : c.Admitted) (h : c.planner.refresh1 = some m)
include ha h

theorem holders_gather (hop : c.commOp = .gather ∨ c.commOp = .allGather) (hne : j ≠ z) (hx : covered z x (m (j, a)) ≠ 0) :
    holders c.planner m z x = 0 := by
  have hp : c.planner.pipelined = false := by
    unfold Planner.pipelined
    rcases hop with hop | hop <;> simp [hop]
  have hcounts : c.counts = (c.count, c.count * c.comm.nranks) := by
    unfold Call.counts CommOp.runnerCounts
    rcases hop with hop | hop <;> simp [hop]
  obtain ⟨e, he, -, -, hex⟩ := exists_of_covered hx
  obtain ⟨-, h1, h2⟩ := cluster_range h hp he hex
  -- with nothing to send no range would be there
  have hpos : 0 < c.count := by
    refine Nat.pos_of_ne_zero fun h0 => ?_
    have hcc : c.planner.clusterCount j = 0 := by
      simp [Planner.clusterCount, Call.planner, hcounts, h0, Planner.totalCount]
    omega
  have hlt : ¬ c.planner.recvCount ≤ c.planner.sendCount := by
    simp only [Call.planner, hcounts]
    have := Nat.mul_le_mul_left c.count ha.two_le_nranks
    omega
  have hrange : ∀ i, c.planner.clusterBase i = c.planner.clusterOffset i * c.planner.sendCount ∧
      c.planner.clusterBase i + c.planner.clusterCount i = c.planner.clusterOffset (i + 1) * c.planner.sendCount := by
    intro i
    unfold Planner.clusterBase Planner.clusterCount
    rw [if_neg hlt, if_neg hlt, clusterOffset_succ, Nat.add_mul, Nat.mul_comm c.planner.sendCount]
    exact ⟨rfl, rfl⟩
  refine countP_eq_zero.2 fun b _ hb => hne ?_
  obtain ⟨e', he', -, hex'⟩ := exists_of_holds hb
  obtain ⟨-, h3, h4⟩ := cluster_range h hp he' hex'
  rw [(hrange j).2] at h2
  rw [(hrange j).1] at h1
  rw [(hrange z).2] at h4
  rw [(hrange z).1] at h3
  exact interval_unique (fun i => c.planner.clusterOffset i * c.planner.sendCount)
    (fun hle => Nat.mul_le_mul_right _ (clusterOffset_mono _ hle)) h1 h2 h3 h4

theorem holders_spread (hop : c.commOp = .broadcast ∨ c.commOp = .scatter) (hne : j ≠ z) (hx : covered z x (m (j, a)) ≠ 0) :
    holders c.planner m z x = 0 := by
  have hp : c.planner.pipelined = false := by
    unfold Planner.pipelined
    rcases hop with hop | hop <;> simp [hop]
  have hroot : ∃ r, c.rootRank = some r := by
    rw [← Option.isSome_iff_exists, ha.root_isSome, Call.rooted]
    rcases hop with hop | hop <;> simp [hop]
  obtain ⟨r, hr⟩ := hroot
  have hsender : ∀ i, c.planner.isUseless i = false → c.comm.clusterIds r = i := by
    intro i hi
    unfold Planner.isUseless at hi
    have hid : c.planner.rootClusterId = some (c.comm.clusterIds r) := by simp [Call.planner, Call.rootClusterId, hr]
    rw [hid] at hi
    rcases hop with hop | hop <;> simpa [hop] using hi
  obtain ⟨e, he, -, -, hex⟩ := exists_of_covered hx
  refine countP_eq_zero.2 fun b _ hb => hne ?_
  obtain ⟨e', he', -, hex'⟩ := exists_of_holds hb
  rw [← hsender j (cluster_range h hp he hex).1, ← hsender z (cluster_range h hp he' hex').1]

end

section

variable (ha : c.Admitted) (hs : c.reachesSearch = true) (h : c.planner.refresh1 = some m)
include ha hs h

theorem spare_refresh1 : Spare c.planner m := by
  intro j z a x hne _ hx
  have hz : z < c.planner.nclusters := by
    obtain ⟨e, he, -, hdst, -⟩ := exists_of_covered hx
    obtain ⟨z', hz', _, hf, -⟩ := fresh_of_mem h he
    rw [← hdst, hf.dst]
    exact hz'
  have hpos := length_pos_of_ne_nil (ha.ranks_ne_nil hz)
  have hone := holders_refresh1 h z x
  by_cases hr : c.commOp.reduces = true
  · have := ha.two_le hs hr hz
    omega
  · have hop : (c.commOp = .gather ∨ c.commOp = .allGather) ∨ c.commOp = .broadcast ∨ c.commOp = .scatter := by
      have hc := ha.collective
      unfold CommOp.reduces at hr
      unfold Call.reachesSearch at hs
      revert hr hc hs
      cases c.commOp <;> simp
    rcases hop with hop | hop
    · rw [holders_gather ha h hop hne hx]
      exact hpos
    · rw [holders_spread ha h hop hne hx]
      exact hpos

theorem ready_refresh1 : Ready c.planner m :=
  ⟨noRecv_refresh1 h, positive_refresh1 h, directed_refresh1 h, spare_refresh1 ha hs h⟩

end

end Calls

end FlagCX.C2c
