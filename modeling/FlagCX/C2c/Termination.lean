import FlagCX.C2c.Regather
import Mathlib.Tactic.IntervalCases

/-!
# The search loop of `findStrategy` ends with everything scheduled

* `WalkEnds` : the iterator of a walk reaches the end of its list.
* `loopLists` : the lists at the end of a loop.
* `loops_end` : rounds that leave less outstanding run out, whatever holds of their lists.
* `search_schedules_everything` : the search ends, every round makes progress, and the loops end with nothing waiting.
* `search_delivers` : what the loops deliver to a cluster, element by element.
-/

namespace FlagCX.C2c
open List Option

def Advances (p : Planner) (searchMethod loopId : Nat) (job : Job) (a b : SearchState × Nat) : Prop :=
  visit p searchMethod loopId job a.1 a.2 = some b

/-- The walk from the first position of the list reaches its end after finitely many iterations. -/
def WalkEnds (p : Planner) (searchMethod loopId : Nat) (job : Job) (s : SearchState) : Prop :=
  ∃ k, Relation.ReflTransGen (Advances p searchMethod loopId job) (s, 0) (scan p searchMethod loopId job s, k) ∧
    visit p searchMethod loopId job (scan p searchMethod loopId job s) k = none

theorem walkEnds (p : Planner) (searchMethod loopId : Nat) {job : Job} (hjob : job ∈ searchJobs p) (s : SearchState) :
    WalkEnds p searchMethod loopId job s := by
  let Reached : SearchState → Nat → Prop := fun s' k =>
    Relation.ReflTransGen (Advances p searchMethod loopId job) (s, 0) (s', k)
  have hstep : ∀ s₁ k₁ s₂ k₂, Reached s₁ k₁ → visit p searchMethod loopId job s₁ k₁ = some (s₂, k₂) → Reached s₂ k₂ :=
    fun _ _ _ _ h hv => h.tail hv
  obtain ⟨k, hk, hend⟩ := scan_rule (mem_searchJobs hjob).ne hstep Relation.ReflTransGen.refl
  exact ⟨k, hk, visit_eq_none.2 hend⟩

namespace Planner

def loopLists (p : Planner) (m : BufferInfos) (i : Nat) : BufferInfos :=
  if p.twoPhase then p.secondRound m i else p.firstRound m i

end Planner

section Loops
variable {p : Planner} {m m₀ : BufferInfos} {i : Nat}

theorem loopStart_succ (hl : p.loopStart m₀ i = some m) :
    p.loopStart m₀ (i + 1) =
      if p.scheduleCompleted (p.firstRound m i) then none else some (p.refresh0 (p.loopLists m i)) := by
  simp only [Planner.loopStart, hl, bind_some, Planner.loopLists]

theorem loops_end {I : BufferInfos → Prop} (hstep : ∀ i m, I m → ¬ p.scheduleCompleted (p.firstRound m i) →
      I (p.refresh0 (p.loopLists m i)) ∧ outstanding p (p.refresh0 (p.loopLists m i)) < outstanding p m)
    (hl : p.loopStart m₀ i = some m) (h : I m) :
    ∃ n m', p.loopStart m₀ n = some m' ∧ p.loopStart m₀ (n + 1) = none ∧ I m' ∧ p.scheduleCompleted (p.firstRound m' n) := by
  generalize hn : outstanding p m = n
  induction n using Nat.strong_induction_on generalizing i m with
  | _ n ih =>
    by_cases hdone : p.scheduleCompleted (p.firstRound m i)
    · exact ⟨i, m, hl, by rw [loopStart_succ hl, if_pos hdone], h, hdone⟩
    · obtain ⟨hI, hlt⟩ := hstep i m h hdone
      exact ih _ (hn ▸ hlt) (by rw [loopStart_succ hl, if_neg hdone]) hI rfl

theorem Ready.round_lt {searchMethod loopId : Nat} (h : Ready p m)
    (hn : ¬ p.scheduleCompleted (searchHeteroSendRecvOps p searchMethod loopId ⟨m, []⟩).infos) :
    outstanding p (searchHeteroSendRecvOps p searchMethod loopId ⟨m, []⟩).infos < outstanding p m := by
  refine h.progress fun hdone => hn ?_
  rw [scheduleCompleted_iff h.positive h.directed] at hdone
  rw [scheduleCompleted_iff h.positive.search h.directed.search]
  have := outstanding_search p searchMethod loopId m
  omega

theorem outstandingAt_filter_le (f : BufferInfo → Bool) (l : List BufferInfo) :
    outstandingAt (l.filter f) ≤ outstandingAt l := by
  induction l with
  | nil => exact le_rfl
  | cons e l ih =>
    rw [filter_cons, outstandingAt_cons]
    split_ifs
    · rw [outstandingAt_cons]
      omega
    · omega

theorem Mixed.secondLists (h : Mixed p m) {key : Nat × Nat} (hkey : p.isInterRank key) :
    p.secondLists m i key = (p.firstRound m i key).filter fun e => !e.isScheduled && e.peerRank.isNone := by
  rw [secondLists_apply hkey]
  have hnone : p.arrivals m key = [] := by
    rw [eq_nil_iff_forall_not_mem]
    intro e he
    obtain ⟨at', hat, -, e', he', -⟩ := mem_arrivals he
    rw [h.held _ (ownKey_isInterRank hat)] at he'
    exact absurd he' not_mem_nil
  rw [hnone, append_nil]

theorem Mixed.outstanding_secondLists (h : Mixed p m) :
    outstanding p (p.secondLists m i) ≤ outstanding p (p.firstRound m i) := by
  have hle : ∀ l : List (Nat × Nat), (∀ key ∈ l, p.isInterRank key) →
      (l.map fun key => outstandingAt (p.secondLists m i key)).sum ≤
        (l.map fun key => outstandingAt (p.firstRound m i key)).sum := by
    intro l hl
    induction l with
    | nil => exact le_rfl
    | cons key l ih =>
      simp only [map_cons, sum_cons]
      rw [h.secondLists (hl key mem_cons_self)]
      exact Nat.add_le_add (outstandingAt_filter_le _ _) (ih fun k hk => hl k (mem_cons_of_mem _ hk))
  exact hle _ fun key hkey => mem_keys.1 hkey

theorem Mixed.completes (hp : p.TwoPhases) (h : Mixed p m) (hdone : p.scheduleCompleted (p.firstRound m i)) :
    p.scheduleCompleted (p.secondRound m i) := by
  have hsecond := (mixed_secondLists i hp h.sourced).ready
  unfold Planner.firstRound at hdone
  rw [scheduleCompleted_iff h.ready.positive.search h.ready.directed.search] at hdone
  have hle : outstanding p (p.secondLists m i) ≤ 0 := hdone ▸ h.outstanding_secondLists
  have := outstanding_search p 1 0 (p.secondLists m i)
  unfold Planner.secondRound
  rw [scheduleCompleted_iff hsecond.positive.search hsecond.directed.search]
  omega

/-- **The second search of a first loop that leaves nothing waiting leaves nothing waiting either.** -/
theorem second_completes (hp : p.TwoPhases) (hready : Ready p m) (h : p.refresh1 = some m)
    (hdone : p.scheduleCompleted (p.firstRound m i)) : p.scheduleCompleted (p.secondRound m i) := by
  have hsourced := sourced_refresh1 hp hready h
  have hmixed := mixed_secondLists i hp hsourced
  have hlists : ∀ key, p.isInterRank key → p.secondLists m i key = p.arrivals m key := by
    intro key hkey
    rw [secondLists_apply hkey, filter_eq_nil_iff.2, nil_append]
    intro e he
    simp [hdone key.1 (lt_nclusters hkey) key.2 hkey e he]
  have hblock : ∀ key, p.isInterRank key → ∀ e ∈ p.secondLists m i key, ∀ x, e.Contains x → p.InBlock key.1 x := by
    intro key hkey e he x hx
    rw [hlists key hkey] at he
    obtain ⟨at', hat, rfl, e', he', c, -, -, rfl⟩ := mem_arrivals he
    exact (hsourced.held _ hat e' he' x hx).inBlock
  intro j hj a ha e he
  by_contra hs
  rw [Bool.not_eq_true] at hs
  have hdirected : Directed p (p.secondRound m i) := hmixed.ready.directed.search
  obtain ⟨hne, hz⟩ := (hdirected (j, a) e he).2 hs
  have hsend : e.isRecv = false := by
    cases hr : e.isRecv with
    | false => rfl
    | true =>
      rw [(hdirected (j, a) e he).1 hr] at hs
      exact absurd hs (by decide)
  have hmem : e ∈ unplaced e.clusterIdToSend (p.secondRound m i (j, a)) := mem_unplaced.2 ⟨he, hs, hsend, rfl⟩
  have htwo := hp.two_le _ hz
  refine search_clears (X := fun _ => True) hmixed.ready.noRecv hmixed.ready.positive ha
    (ne_nil_of_length_pos (by omega)) hne.symm (fun x _ => ?_) hmem trivial
  generalize e.clusterIdToSend = z at hz htwo
  by_cases h0 : pending p (p.secondLists m i) z x = 0
  · rw [h0]
    exact countP_le_length
  · -- a send over `x` comes from another cluster's block, so no send of `z` is over it
    unfold pending at h0
    rw [List.sum_eq_zero_iff_forall_eq_nat, not_forall] at h0
    obtain ⟨v, hv⟩ := h0
    rw [not_forall] at hv
    obtain ⟨hv, hv0⟩ := hv
    obtain ⟨key, hkey, rfl⟩ := mem_map.1 hv
    have hkey := mem_keys.1 hkey
    obtain ⟨e', he', hex'⟩ := countP_pos_iff.1 (pos_of_ne_zero hv0)
    obtain ⟨hmem', hw'⟩ := mem_unplaced.1 he'
    have hb := hblock key hkey e' hmem' x (of_decide_eq_true hex')
    have hzk : key.1 ≠ z := fun hk => ((hmixed.ready.directed key e' hmem').2 hw'.1).1 (hw'.2.2.trans hk.symm)
    have hpend := pending_secondLists i hp hready h hb hzk hz
    have hhold : holders p (p.secondLists m i) z x = 0 := by
      refine countP_eq_zero.2 fun b hbz hh => ?_
      obtain ⟨e'', he'', -, hex''⟩ := exists_of_holds hh
      exact hzk (hb.unique (hblock (z, b) hbz e'' he'' x hex''))
    split_ifs at hpend <;> omega

end Loops

section Calls
variable {c : Call} {m₀ m : BufferInfos} {i : Nat}

theorem accepted_of_refresh1 {p : Planner} (h : p.refresh1 = some m) : p.accepted := by
  unfold Planner.refresh1 at h
  split_ifs at h with hacc
  exact hacc

theorem Call.Admitted.twoPhases (ha : c.Admitted) (hs : c.reachesSearch = true) (hacc : c.planner.accepted)
    (ht : c.planner.twoPhase = true) : c.planner.TwoPhases := by
  have hop : c.commOp = .allReduce := by simpa using (Bool.and_eq_true_iff.1 ht).1
  refine ⟨hacc, ht, ?_, fun z hz => ha.two_le hs (by simp [hop, CommOp.reduces]) hz⟩
  have hpipe : c.pipe.isSome = true := (Bool.and_eq_true_iff.1 ht).2
  unfold Call.pipe pipeSteps at hpipe
  rw [hop] at hpipe
  change c.multiNic = true
  revert hpipe
  cases c.ring <;> cases c.multiNic <;> simp

theorem ready_loopStart (ha : c.Admitted) (hs : c.reachesSearch = true) (h : c.planner.refresh1 = some m₀)
    (hl : c.planner.loopStart m₀ i = some m) :
    Ready c.planner m ∧ (c.planner.twoPhase = true → Sourced c.planner m ∧ (i ≠ 0 → Mixed c.planner m)) := by
  have hready := ready_refresh1 ha hs h
  induction i generalizing m with
  | zero =>
    obtain rfl := some.inj hl
    exact ⟨hready, fun ht => ⟨sourced_refresh1 (ha.twoPhases hs (accepted_of_refresh1 h) ht) hready h,
      fun hne => absurd rfl hne⟩⟩
  | succ i ih =>
    obtain ⟨m', hm', -⟩ := bind_eq_some_iff.1 hl
    obtain ⟨hr, htwo⟩ := ih hm'
    rw [loopStart_succ hm'] at hl
    split_ifs at hl
    obtain rfl := some.inj hl
    unfold Planner.loopLists
    by_cases ht : c.planner.twoPhase = true
    · have hp := ha.twoPhases hs (accepted_of_refresh1 h) ht
      have hm : Mixed c.planner (c.planner.refresh0 (c.planner.secondRound m' i)) :=
        (mixed_secondLists _ hp (htwo ht).1).round
      rw [if_pos ht]
      exact ⟨hm.ready, fun _ => ⟨hm.sourced, fun _ => hm⟩⟩
    · rw [if_neg ht]
      exact ⟨hr.round, fun h' => absurd h' ht⟩

theorem Ready.loop_lt {p : Planner} (h : Ready p m) (ht : p.twoPhase = true → p.TwoPhases ∧ Mixed p m)
    (hn : ¬ p.scheduleCompleted (p.firstRound m i)) :
    outstanding p (p.refresh0 (p.loopLists m i)) < outstanding p m := by
  have hlt : outstanding p (p.firstRound m i) < outstanding p m := h.round_lt hn
  rw [outstanding_refresh0]
  unfold Planner.loopLists
  split_ifs with htwo
  · have h1 : outstanding p (p.secondLists m i) ≤ outstanding p (p.firstRound m i) := (ht htwo).2.outstanding_secondLists
    have h2 : outstanding p (p.secondRound m i) ≤ outstanding p (p.secondLists m i) := outstanding_search ..
    omega
  · exact hlt

end Calls

/-- **The search terminates and schedules everything.** For every call that reaches the general search: each walk of a
search reaches the end of the list it walks; each search that starts with something waiting schedules some of it; and the
loops end, with nothing left waiting. -/
theorem search_schedules_everything {c : Call} (ha : c.Admitted) (hs : c.reachesSearch = true) {m₀ : BufferInfos}
    (h : c.planner.refresh1 = some m₀) :
    (∀ searchMethod loopId s, ∀ job ∈ searchJobs c.planner, WalkEnds c.planner searchMethod loopId job s) ∧
      (∀ i m, c.planner.loopStart m₀ i = some m →
        (¬ c.planner.scheduleCompleted m → outstanding c.planner (c.planner.firstRound m i) < outstanding c.planner m) ∧
        (c.planner.twoPhase = true → ¬ c.planner.scheduleCompleted (c.planner.secondLists m i) →
          outstanding c.planner (c.planner.secondRound m i) < outstanding c.planner (c.planner.secondLists m i))) ∧
      ∃ n m, c.planner.loopStart m₀ n = some m ∧ c.planner.loopStart m₀ (n + 1) = none ∧
        c.planner.scheduleCompleted (c.planner.loopLists m n) := by
  refine ⟨fun searchMethod loopId s job hjob => walkEnds c.planner searchMethod loopId hjob s, ?_, ?_⟩
  · intro i m hl
    obtain ⟨hr, htwo⟩ := ready_loopStart ha hs h hl
    refine ⟨hr.progress, fun ht => ?_⟩
    have hp := ha.twoPhases hs (accepted_of_refresh1 h) ht
    exact (mixed_secondLists _ hp (htwo ht).1).ready.progress
  · have hready := ready_refresh1 ha hs h
    by_cases ht : c.planner.twoPhase = true
    · have hp := ha.twoPhases hs (accepted_of_refresh1 h) ht
      have hlists : ∀ m i, c.planner.loopLists m i = c.planner.secondRound m i := fun m i => if_pos ht
      by_cases hdone : c.planner.scheduleCompleted (c.planner.firstRound m₀ 0)
      · refine ⟨0, m₀, rfl, by rw [loopStart_succ rfl, if_pos hdone], ?_⟩
        rw [hlists]
        exact second_completes hp hready h hdone
      · -- from the second loop on only ranges of the two phases are left
        have hm : Mixed c.planner (c.planner.refresh0 (c.planner.loopLists m₀ 0)) := by
          rw [hlists]
          exact (mixed_secondLists _ hp (sourced_refresh1 hp hready h)).round
        have hl : c.planner.loopStart m₀ 1 = some (c.planner.refresh0 (c.planner.loopLists m₀ 0)) := by
          rw [loopStart_succ rfl, if_neg hdone]
        obtain ⟨n, m, h1, h2, hmix, hdone⟩ := loops_end (I := Mixed c.planner) (fun i m hm hn => ⟨by
          rw [hlists]
          exact (mixed_secondLists _ hp hm.sourced).round, hm.ready.loop_lt (fun _ => ⟨hp, hm⟩) hn⟩) hl hm
        refine ⟨n, m, h1, h2, ?_⟩
        rw [hlists]
        exact hmix.completes hp hdone
    · have hlists : ∀ m i, c.planner.loopLists m i = c.planner.firstRound m i := fun m i => if_neg ht
      obtain ⟨n, m, h1, h2, -, hdone⟩ := loops_end (I := Ready c.planner) (i := 0) (m := m₀) (fun i m hm hn => ⟨by
        rw [hlists]
        exact hm.round, hm.loop_lt (fun h' => absurd h' ht) hn⟩) rfl hready
      refine ⟨n, m, h1, h2, ?_⟩
      rw [hlists]
      exact hdone

/-- Two clusters of three ranks, one with two inter-ranks and one with three. -/
def unevenNicComm : Comm where
  clusterInterRankList := [[0, 1], [3, 4, 5]]
  clusterIds r := if r < 3 then 0 else 1
  clusterSizes _ := 3
  nranks := 6
  member := member_two (by decide) (by decide)
  nodup := nodup_two (by decide) (by decide)

theorem unevenNicComm_topology : unevenNicComm.Topology := ⟨by decide, by decide, rfl, by decide, Comm.ids_two 3 rfl rfl rfl⟩

/-- An all-reduce of six elements on them: the shares of the clusters do not line up, so the search has to split. -/
def unevenNicCall : Call := ⟨unevenNicComm, .allReduce, 6, none, 0, .coarse, false⟩

theorem search_schedules_everything_unevenNic : ∃ m₀, unevenNicCall.planner.refresh1 = some m₀ ∧
    outstanding unevenNicCall.planner m₀ = 12 ∧
    ∃ n m, unevenNicCall.planner.loopStart m₀ n = some m ∧ unevenNicCall.planner.loopStart m₀ (n + 1) = none ∧
      unevenNicCall.planner.scheduleCompleted (unevenNicCall.planner.loopLists m n) := by
  have ha : unevenNicCall.Admitted :=
    ⟨unevenNicComm_topology, by decide, by decide, rfl, fun r h => absurd h (by simp [unevenNicCall])⟩
  refine ⟨_, rfl, by decide +kernel, ?_⟩
  exact (search_schedules_everything ha (by decide) rfl).2.2

/-! ## What the loops deliver -/

section Delivers
variable {p : Planner} {m m₀ : BufferInfos} {i z x : Nat}

/-- The receives of cluster `z` that cover `x` in the round of loop `i`, if there is one. -/
def Planner.delivered (p : Planner) (m₀ : BufferInfos) (z x i : Nat) : Nat :=
  (p.loopStart m₀ i).elim 0 fun m => taken p (p.firstRound m i) z x

theorem pending_completed (h : p.scheduleCompleted m) : pending p m z x = 0 := by
  refine List.sum_eq_zero_iff_forall_eq_nat.2 fun v hv => ?_
  obtain ⟨key, hkey, rfl⟩ := mem_map.1 hv
  have hkey := mem_keys.1 hkey
  refine countP_eq_zero.2 fun e he => ?_
  obtain ⟨hmem, hwaits⟩ := mem_unplaced.1 he
  have := h key.1 (lt_nclusters hkey) key.2 hkey e hmem
  simp_all

theorem pending_refresh0 (m : BufferInfos) : pending p (p.refresh0 m) z x = pending p m z x := by
  unfold pending pendingAt unplaced Planner.refresh0
  refine congrArg List.sum (map_congr_left fun key _ => ?_)
  split_ifs
  · rw [List.filter_filter]
    refine congrArg _ (filter_congr fun e _ => ?_)
    cases e.isRecv <;> simp
  · rfl

/-- What a loop does not deliver is what the next one starts with. -/
theorem delivered_add (hno : ∀ i m, p.loopStart m₀ i = some m → NoRecv m) (ht : p.twoPhase = false) (i : Nat) :
    p.delivered m₀ z x i + (p.loopStart m₀ (i + 1)).elim 0 (pending p · z x) =
      (p.loopStart m₀ i).elim 0 (pending p · z x) := by
  unfold Planner.delivered
  cases hl : p.loopStart m₀ i with
  | none => simp [Planner.loopStart, hl]
  | some m =>
    have hsum : pending p (p.firstRound m i) z x + taken p (p.firstRound m i) z x = pending p m z x :=
      pending_taken_search 1 i (hno i m hl) z x
    have hlists : p.loopLists m i = p.firstRound m i := if_neg (by simp [ht])
    rw [loopStart_succ hl, hlists]
    split_ifs with hdone
    · rw [pending_completed hdone, Nat.zero_add] at hsum
      exact hsum
    · rw [← pending_refresh0, Nat.add_comm] at hsum
      exact hsum

theorem sum_delivered (hno : ∀ i m, p.loopStart m₀ i = some m → NoRecv m) (ht : p.twoPhase = false) (n : Nat) :
    ((List.range n).map (p.delivered m₀ z x)).sum + (p.loopStart m₀ n).elim 0 (pending p · z x) = pending p m₀ z x := by
  induction n with
  | zero => simp [Planner.loopStart]
  | succ n ih =>
    rw [range_succ, map_append, sum_append, map_singleton, sum_singleton, Nat.add_assoc, delivered_add hno ht, ih]

end Delivers

/-- **Every element arrives as often as it is to be sent**: over the loops of a search without a second phase, the
inter-ranks of a cluster receive each element once for every send of it to the cluster in the lists of `refresh(1)`. -/
theorem search_delivers {c : Call} (ha : c.Admitted) (hs : c.reachesSearch = true) (ht : c.planner.twoPhase = false)
    {m₀ : BufferInfos} (h : c.planner.refresh1 = some m₀) :
    ∃ n, c.planner.loopStart m₀ n = none ∧
      ∀ z x, ((List.range n).map (c.planner.delivered m₀ z x)).sum = pending c.planner m₀ z x := by
  have hno := fun i m hl => (ready_loopStart ha hs h (i := i) (m := m) hl).1.noRecv
  obtain ⟨n, m, -, hend, -⟩ := loops_end (I := Ready c.planner) (i := 0) (m := m₀) (fun i m hm hn => by
    have hlt := hm.loop_lt (fun h' => absurd h' (by simp [ht])) hn
    have hlists : c.planner.loopLists m i = c.planner.firstRound m i := if_neg (by simp [ht])
    exact ⟨by rw [hlists]; exact hm.round, hlt⟩) rfl (ready_refresh1 ha hs h)
  refine ⟨n + 1, hend, fun z x => ?_⟩
  have hsum := sum_delivered (z := z) (x := x) hno ht (n + 1)
  rwa [hend] at hsum

/-- Element 2 is to be sent to the second cluster once. -/
theorem search_delivers_unevenNic : ∃ m₀ n, unevenNicCall.planner.refresh1 = some m₀ ∧
    ((List.range n).map (unevenNicCall.planner.delivered m₀ 1 2)).sum = 1 := by
  have ha : unevenNicCall.Admitted :=
    ⟨unevenNicComm_topology, by decide, by decide, rfl, fun r h => absurd h (by simp [unevenNicCall])⟩
  obtain ⟨n, -, hn⟩ := search_delivers ha (by decide) (by decide) rfl
  exact ⟨_, n, rfl, (hn 1 2).trans (by decide +kernel)⟩

end FlagCX.C2c
