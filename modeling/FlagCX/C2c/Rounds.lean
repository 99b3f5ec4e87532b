import Mathlib.Data.Multiset.Filter
import FlagCX.C2c.Search

/-!
# Rounds of the search: nothing is lost, nothing overwritten, every send has its receive

* `rounds` : rounds of `searchHeteroSendRecvOps`, each followed by `refresh(0)`.
* `Fitted` : the receives of a round fit where they were pushed, and are pairwise disjoint.
-/

namespace FlagCX.C2c
open List Function

/-- Rounds of the search, given by their method and loop, each followed by `refresh(0)`. -/
def rounds (p : Planner) (m : BufferInfos) : List (Nat × Nat) → BufferInfos
  | [] => m
  | r :: rs => rounds p (p.refresh0 (searchHeteroSendRecvOps p r.1 r.2 ⟨m, []⟩).infos) rs

/-! ## Coverage -/

/-- The number of sends to `z` in the list that cover element `x`. -/
def covered (z x : Nat) (l : List BufferInfo) : Nat :=
  l.countP fun e => !e.isRecv && e.clusterIdToSend == z && decide (e.Contains x)

/-- The number of sends to `z` at the inter-ranks of `j` that cover element `x`. -/
def coverage (p : Planner) (m : BufferInfos) (j z x : Nat) : Nat := ((p.ranks j).map fun a => covered z x (m (j, a))).sum

variable {e it : BufferInfo} {count b offset : Nat} {pre post l : List BufferInfo}

section Coverage
variable {p : Planner} {loopId : Nat} {job : Job} {s s' : SearchState} {k k' : Nat}

@[simp] theorem covered_append (z x : Nat) (l l' : List BufferInfo) :
    covered z x (l ++ l') = covered z x l + covered z x l' := countP_append

theorem covered_cons (z x : Nat) (e : BufferInfo) (l : List BufferInfo) :
    covered z x (e :: l) = covered z x [e] + covered z x l := by
  rw [← covered_append, singleton_append]

theorem covered_recvInfo (z x offset count a loopId : Nat) : covered z x [recvInfo offset count a loopId] = 0 := by
  simp [covered, recvInfo]

theorem covered_send (hr : e.isRecv = false) (z x : Nat) :
    covered z x [e] = if e.clusterIdToSend = z ∧ e.offset ≤ x ∧ x < e.offset + e.count then 1 else 0 := by
  by_cases hz : e.clusterIdToSend = z
  · by_cases hx : e.offset ≤ x ∧ x < e.offset + e.count <;> simp [covered, hr, hz, BufferInfo.Contains, hx]
  · simp [covered, hz]

theorem covered_piece (hlt : count < it.count) (hr : it.isRecv = false) (mode : PushMode) (b loopId z x : Nat) :
    covered z x [⟨mode.pieceOffset it.offset it.count count, count, it.clusterIdToSend, false, true, some b,
      some loopId⟩, ⟨mode.restOffset it.offset count, it.count - count, it.clusterIdToSend, false, false, none,
      none⟩] = covered z x [it] := by
  rw [covered_cons, covered_send rfl, covered_send rfl, covered_send hr]
  cases mode with
  | prePush =>
    change (if it.clusterIdToSend = z ∧ it.offset ≤ x ∧ x < it.offset + count then 1 else 0) +
      (if it.clusterIdToSend = z ∧ it.offset + count ≤ x ∧ x < it.offset + count + (it.count - count) then 1 else 0) = _
    split_ifs <;> omega
  | postPush =>
    change (if it.clusterIdToSend = z ∧ it.offset + it.count - count ≤ x ∧ x < it.offset + it.count - count + count
      then 1 else 0) +
      (if it.clusterIdToSend = z ∧ it.offset ≤ x ∧ x < it.offset + (it.count - count) then 1 else 0) = _
    split_ifs <;> omega

theorem Replaced.covered (h : Replaced loopId b it offset count pre post l k') (hr : it.isRecv = false) (z x : Nat) :
    covered z x l = covered z x (pre ++ it :: post) := by
  cases h with
  | whole ho hc =>
    rw [covered_append, covered_append, covered_cons, covered_cons z x it]
    rfl
  | piece mode hpos hlt ho =>
    subst ho
    rw [covered_append, covered_append, covered_piece hlt hr, covered_append, covered_cons z x it post]
    omega

theorem Visited.covered (h : Visited p loopId job s k s' k') (z x : Nat) (key : Nat × Nat) :
    covered z x (s'.infos key) = covered z x (s.infos key) := by
  cases h with
  | skip hk => rfl
  | place hk hlist hw hb hfits hrep hcut =>
    rw [place_infos]
    split_ifs with h1 h2
    · rw [h1, hlist, hrep.covered hw.2.1]
    · rw [covered_append, covered_recvInfo, Nat.add_zero]
    · rfl

theorem covered_search (p : Planner) (searchMethod loopId : Nat) (m : BufferInfos) (z x : Nat) (key : Nat × Nat) :
    covered z x ((searchHeteroSendRecvOps p searchMethod loopId ⟨m, []⟩).infos key) = covered z x (m key) := by
  refine search_induct (P := fun s => covered z x (s.infos key) = covered z x (m key)) ?_ rfl
  intro job s k s' k' _ hs hv
  rw [hv.covered, hs]

theorem covered_refresh0 (p : Planner) (m : BufferInfos) (z x : Nat) (key : Nat × Nat) :
    covered z x (p.refresh0 m key) = covered z x (m key) := by
  unfold Planner.refresh0
  split_ifs
  · rw [covered, countP_filter, covered]
    refine countP_congr fun e _ => ?_
    cases e.isRecv <;> simp
  · rfl

theorem covered_rounds (p : Planner) (m : BufferInfos) (rs : List (Nat × Nat)) (z x : Nat) (key : Nat × Nat) :
    covered z x (rounds p m rs key) = covered z x (m key) := by
  induction rs generalizing m with
  | nil => rfl
  | cons r rs ih => rw [rounds, ih, covered_refresh0, covered_search]

end Coverage

/-! ## Receives fit -/

def received (l : List BufferInfo) : List BufferInfo := l.filter fun e => e.isRecv

def NoRecv (m : BufferInfos) : Prop := ∀ key, received (m key) = []

/-- The receives of a list are those the round pushed there, each one fits where it was pushed, and they are pairwise
disjoint. -/
structure Fitted (p : Planner) (s : SearchState) : Prop where
  fits : ∀ push ∈ s.pushed, ∀ e ∈ push.before, push.info.Disjoint e
  home : ∀ push ∈ s.pushed, p.isInterRank push.key
  recvs : ∀ key, received (s.infos key) = (s.pushed.filter fun push => push.key = key).map Push.info
  pairwise : ∀ key, (received (s.infos key)).Pairwise BufferInfo.Disjoint

section Fitted
variable {p : Planner} {loopId : Nat} {job : Job} {s s' : SearchState} {k k' : Nat}

@[simp] theorem received_append (l l' : List BufferInfo) : received (l ++ l') = received l ++ received l' := filter_append ..

theorem Replaced.received (h : Replaced loopId b it offset count pre post l k') (hr : it.isRecv = false) :
    received l = received (pre ++ it :: post) := by
  cases h with
  | whole ho hc => simp [C2c.received, hr]
  | piece mode hpos hlt ho => simp [C2c.received, hr]

theorem place_received
    (hjob : job.src ≠ job.dst) (hlist : s.infos (job.src, job.rank p) = pre ++ it :: post) (hr : it.isRecv = false)
    (hrep : Replaced loopId b it offset count pre post l k') (key : Nat × Nat) :
    received ((s.place p loopId job b offset count l).infos key) =
      received (s.infos key) ++
        if key = (job.dst, b) then [recvInfo offset count (job.rank p) loopId] else [] := by
  rw [place_infos]
  by_cases h1 : key = (job.src, job.rank p)
  · have h2 : key ≠ (job.dst, b) := fun he => hjob (congrArg Prod.fst (h1.symm.trans he))
    rw [if_pos h1, if_neg h2, append_nil, h1, hlist, hrep.received hr]
  · split_ifs with h2
    · rw [received_append]
      rfl
    · rw [append_nil]

theorem Fitted.visited (h : Fitted p s) (hjob : job.Valid p) (hv : Visited p loopId job s k s' k') : Fitted p s' := by
  cases hv with
  | skip hk => exact h
  | @place b offset count _ it pre post l hk hlist hw hb hfits hrep hcut =>
    have hrecv := place_received hjob.ne hlist hw.2.1 hrep
    have hfit : ∀ e ∈ s.infos (job.dst, b), (recvInfo offset count (job.rank p) loopId).Disjoint e :=
      fun e he => disjoint_of_possibleToPush (by simpa [recvInfo] using hfits) he
    refine ⟨?_, ?_, ?_, ?_⟩
    · intro push hpush
      rcases mem_append.1 hpush with hold | hnew
      · exact h.fits push hold
      · obtain rfl := mem_singleton.1 hnew
        exact hfit
    · intro push hpush
      rcases mem_append.1 hpush with hold | hnew
      · exact h.home push hold
      · obtain rfl := mem_singleton.1 hnew
        exact hb
    · intro key
      rw [hrecv, h.recvs, SearchState.place]
      by_cases hkey : key = (job.dst, b)
      · simp [hkey]
      · simp [hkey, Ne.symm hkey]
    · intro key
      rw [hrecv]
      split_ifs with hkey
      · rw [pairwise_append]
        refine ⟨h.pairwise key, pairwise_singleton _ _, ?_⟩
        intro e he f hf
        obtain rfl := mem_singleton.1 hf
        subst hkey
        exact (hfit e (mem_filter.1 he).1).symm
      · rw [append_nil]
        exact h.pairwise key

variable {m : BufferInfos}

theorem fitted_search (p : Planner) (searchMethod loopId : Nat) (h : NoRecv m) :
    Fitted p (searchHeteroSendRecvOps p searchMethod loopId ⟨m, []⟩) := by
  refine search_induct (P := Fitted p) (fun _ _ _ _ _ hjob hs hv => hs.visited hjob hv) ?_
  refine ⟨by simp, by simp, fun key => ?_, fun key => ?_⟩
  · simpa using h key
  · rw [show received ((⟨m, []⟩ : SearchState).infos key) = [] from h key]
    exact List.Pairwise.nil

theorem NoRecv.refresh0 {searchMethod : Nat} (h : NoRecv m) :
    NoRecv (p.refresh0 (searchHeteroSendRecvOps p searchMethod loopId ⟨m, []⟩).infos) := by
  intro key
  unfold Planner.refresh0
  split_ifs with hkey
  · simp [received, filter_filter]
  · have hf := fitted_search p searchMethod loopId h
    rw [hf.recvs key, map_eq_nil_iff, filter_eq_nil_iff]
    intro push hpush he
    exact hkey (by simpa using (of_decide_eq_true he) ▸ hf.home push hpush)

theorem NoRecv.rounds (h : NoRecv m) (rs : List (Nat × Nat)) : NoRecv (rounds p m rs) := by
  induction rs generalizing m with
  | nil => exact h
  | cons r rs ih => exact ih h.refresh0

end Fitted

/-! ## The lists of `refresh(1)` -/

section Initial
variable {p : Planner} {m : BufferInfos}

theorem refresh1_sendInfo (h : p.refresh1 = some m) {key : Nat × Nat} (he : e ∈ m key) :
    ∃ offset count z scheduled, e = Planner.sendInfo offset count z scheduled := by
  unfold Planner.refresh1 at h
  split_ifs at h
  obtain rfl := Option.some.inj h
  simp only [mem_map, mem_filter, Planner.initialPushes, mem_flatMap] at he
  obtain ⟨push, ⟨⟨i, -, j, -, z, -, e', he', rfl⟩, -⟩, rfl⟩ := he
  split_ifs at he' with hp
  · simp only [Planner.pipelineInfos, mem_append, mem_map] at he'
    rcases he' with ⟨k, -, rfl⟩ | he'
    · exact ⟨_, _, _, _, rfl⟩
    · split_ifs at he'
      · obtain rfl := mem_singleton.1 he'
        exact ⟨_, _, _, _, rfl⟩
      · exact absurd he' not_mem_nil
  · unfold Planner.sequentialInfos at he'
    by_cases hu : i = z ∨ p.isUseless i = true
    · rw [if_pos hu] at he'
      exact absurd he' not_mem_nil
    · rw [if_neg hu] at he'
      simp only [mem_map] at he'
      obtain ⟨k, -, rfl⟩ := he'
      exact ⟨_, _, _, _, rfl⟩

theorem noRecv_refresh1 (h : p.refresh1 = some m) : NoRecv m := by
  intro key
  rw [received, filter_eq_nil_iff]
  intro e he
  obtain ⟨_, _, _, _, rfl⟩ := refresh1_sendInfo h he
  simp [Planner.sendInfo]

end Initial

/-! ## Sends and receives -/

/-- The ranges of a list that are sent to `b` in loop `l`, in list order. -/
def sends (b l : Nat) (infos : List BufferInfo) : List (Nat × Nat) :=
  (infos.filter fun e => e.isScheduled && !e.isRecv && e.peerRank == some b && e.loopId == some l).map
    fun e => (e.offset, e.count)

/-- The ranges of a list that are received from `a` in loop `l`, in list order. -/
def recvs (a l : Nat) (infos : List BufferInfo) : List (Nat × Nat) :=
  (infos.filter fun e => e.isScheduled && e.isRecv && e.peerRank == some a && e.loopId == some l).map
    fun e => (e.offset, e.count)

section Pairing
variable {p : Planner} {loopId : Nat} {job : Job} {s s' : SearchState} {k k' : Nat}

@[simp] theorem sends_append (b l : Nat) (infos infos' : List BufferInfo) :
    sends b l (infos ++ infos') = sends b l infos ++ sends b l infos' := by simp [sends]

@[simp] theorem recvs_append (a l : Nat) (infos infos' : List BufferInfo) :
    recvs a l (infos ++ infos') = recvs a l infos ++ recvs a l infos' := by simp [recvs]

theorem sends_cons (b l : Nat) (e : BufferInfo) (infos : List BufferInfo) :
    sends b l (e :: infos) = sends b l [e] ++ sends b l infos := by
  rw [← sends_append, singleton_append]

theorem recvs_received (a l : Nat) (infos : List BufferInfo) : recvs a l infos = recvs a l (received infos) := by
  unfold recvs received
  rw [filter_filter]
  congr 2
  funext e
  cases e.isRecv <;> simp

theorem sends_unscheduled {l : Nat} (h : e.isScheduled = false) : sends b l [e] = [] := by simp [sends, h]

theorem recvs_recvInfo (a l offset count a' l' : Nat) :
    recvs a l [recvInfo offset count a' l'] = if a = a' ∧ l = l' then [(offset, count)] else [] := by
  by_cases h : a = a' ∧ l = l'
  · simp [recvs, recvInfo, h]
  · have h' : ¬ (a' = a ∧ l' = l) := fun hn => h ⟨hn.1.symm, hn.2.symm⟩
    simp [recvs, recvInfo, h, h']

theorem sends_placed {l : Nat} (hs : e.isScheduled = true) (hr : e.isRecv = false)
    (hb : e.peerRank = some b) (hl : e.loopId = some l) (b' l' : Nat) :
    sends b' l' [e] = if b' = b ∧ l' = l then [(e.offset, e.count)] else [] := by
  by_cases h : b' = b ∧ l' = l
  · simp [sends, hs, hr, hb, hl, h]
  · have h' : ¬ (b = b' ∧ l = l') := fun hn => h ⟨hn.1.symm, hn.2.symm⟩
    simp [sends, hs, hr, hb, hl, h, h']

theorem Replaced.sends
    (h : Replaced loopId b it offset count pre post l k') (hr : it.isRecv = false) (hu : it.isScheduled = false)
    (b' l' : Nat) :
    (sends b' l' l).Perm (sends b' l' (pre ++ it :: post) ++ if b' = b ∧ l' = loopId then [(offset, count)] else []) := by
  rw [sends_append, sends_cons, sends_unscheduled hu, nil_append]
  cases h with
  | whole ho hc =>
    have hnew := sends_placed (e := { it with isScheduled := true, peerRank := some b, loopId := some loopId }) rfl hr
      rfl rfl b' l'
    rw [sends_append, sends_cons, hnew, append_assoc, ho, hc]
    exact List.Perm.append_left _ perm_append_comm
  | piece mode hpos hlt ho =>
    rw [sends_append, sends_append, sends_cons, sends_placed rfl rfl rfl rfl, sends_unscheduled rfl, append_nil]

theorem place_sends (hlist : s.infos (job.src, job.rank p) = pre ++ it :: post) (hw : wanted job it)
    (hrep : Replaced loopId b it offset count pre post l k') (key : Nat × Nat) (b' l' : Nat) :
    (sends b' l' ((s.place p loopId job b offset count l).infos key)).Perm (sends b' l' (s.infos key) ++
        if key = (job.src, job.rank p) ∧ b' = b ∧ l' = loopId then [(offset, count)] else []) := by
  rw [place_infos]
  by_cases h1 : key = (job.src, job.rank p)
  · subst h1
    simpa [hlist] using hrep.sends hw.2.1 hw.1 b' l'
  · have hold : ¬ (key = (job.src, job.rank p) ∧ b' = b ∧ l' = loopId) := fun hn => h1 hn.1
    rw [if_neg h1, if_neg hold, append_nil]
    split_ifs
    · simp [C2c.sends, recvInfo]
    · exact List.Perm.refl _

theorem place_recvs
    (hjob : job.src ≠ job.dst) (hlist : s.infos (job.src, job.rank p) = pre ++ it :: post) (hr : it.isRecv = false)
    (hrep : Replaced loopId b it offset count pre post l k') (key : Nat × Nat) (a l' : Nat) :
    recvs a l' ((s.place p loopId job b offset count l).infos key) =
      recvs a l' (s.infos key) ++
        if key = (job.dst, b) ∧ a = job.rank p ∧ l' = loopId then [(offset, count)] else [] := by
  rw [recvs_received, place_received hjob hlist hr hrep, recvs_append, ← recvs_received]
  by_cases hkey : key = (job.dst, b)
  · simp [hkey, recvs_recvInfo]
  · simp [hkey, recvs]

/-- During a round every range sent from `a` to `b` since the round began is a range `b` receives from `a`. -/
def Balanced (p : Planner) (m : BufferInfos) (s : SearchState) : Prop :=
  ∀ j z a b l, a ∈ p.ranks j → b ∈ p.ranks z → j ≠ z →
    (sends b l (s.infos (j, a))).Perm (sends b l (m (j, a)) ++ recvs a l (s.infos (z, b)))

variable {m : BufferInfos}

theorem Balanced.visited (h : Balanced p m s) (hjob : job.Valid p)
    (hv : Visited p loopId job s k s' k') : Balanced p m s' := by
  cases hv with
  | skip hk => exact h
  | @place b₁ offset count _ it pre post list hk hlist hw hb hfits hrep hcut =>
    intro j z a b l ha hb' hne
    rw [place_recvs hjob.ne hlist hw.2.1 hrep, ← append_assoc]
    refine (place_sends hlist hw hrep (j, a) b l).trans ((h j z a b l ha hb' hne).append ?_)
    -- a rank is an inter-rank of one cluster only, so the pair of ranks fixes the pair of clusters
    have hiff : ((j, a) = (job.src, job.rank p) ∧ b = b₁ ∧ l = loopId) ↔
        ((z, b) = (job.dst, b₁) ∧ a = job.rank p ∧ l = loopId) := by
      constructor
      · rintro ⟨hja, rfl, rfl⟩
        exact ⟨by rw [p.cluster_unique hb' hb], (Prod.mk.inj hja).2, rfl⟩
      · rintro ⟨hzb, rfl, rfl⟩
        exact ⟨by rw [p.cluster_unique ha hjob.rank_mem], (Prod.mk.inj hzb).2, rfl⟩
    rw [if_congr hiff rfl rfl]

theorem NoRecv.recvs (h : NoRecv m) (a l : Nat) (key : Nat × Nat) : recvs a l (m key) = [] := by
  rw [recvs_received, h key]
  rfl

theorem balanced_search (p : Planner) (searchMethod loopId : Nat) (h : NoRecv m) :
    Balanced p m (searchHeteroSendRecvOps p searchMethod loopId ⟨m, []⟩) := by
  refine search_induct (P := Balanced p m) (fun _ _ _ _ _ hjob hs hv => hs.visited hjob hv) ?_
  intro j z a b l _ _ _
  rw [show recvs a l ((⟨m, []⟩ : SearchState).infos (z, b)) = [] from h.recvs a l (z, b), append_nil]

theorem recv_loopId (p : Planner) (searchMethod loopId : Nat) (h : NoRecv m) (key : Nat × Nat) :
    ∀ e ∈ (searchHeteroSendRecvOps p searchMethod loopId ⟨m, []⟩).infos key, e.isRecv = true → e.loopId = some loopId := by
  have hall : ∀ e ∈ received ((searchHeteroSendRecvOps p searchMethod loopId ⟨m, []⟩).infos key),
      e.loopId = some loopId := by
    refine search_induct (P := fun s => ∀ e ∈ received (s.infos key), e.loopId = some loopId) ?_ ?_
    · intro job s k s' k' hjob hs hv
      cases hv with
      | skip hk => exact hs
      | place hk hlist hw hb hfits hrep hcut =>
        intro e he
        rw [place_received hjob.ne hlist hw.2.1 hrep, mem_append] at he
        rcases he with hold | hnew
        · exact hs e hold
        · split_ifs at hnew
          · obtain rfl := mem_singleton.1 hnew
            rfl
          · exact absurd hnew not_mem_nil
    · intro e he
      rw [show received ((⟨m, []⟩ : SearchState).infos key) = [] from h key] at he
      exact absurd he not_mem_nil
  intro e he hr
  exact hall e (mem_filter.2 ⟨he, hr⟩)

theorem recvs_other_loop (p : Planner) (searchMethod loopId : Nat) (h : NoRecv m) {l : Nat}
    (hl : l ≠ loopId) (a : Nat) (key : Nat × Nat) :
    recvs a l ((searchHeteroSendRecvOps p searchMethod loopId ⟨m, []⟩).infos key) = [] := by
  rw [C2c.recvs, map_eq_nil_iff, filter_eq_nil_iff]
  intro e he hc
  simp only [Bool.and_eq_true, beq_iff_eq] at hc
  have := recv_loopId p searchMethod loopId h key e he hc.1.1.2
  rw [hc.2] at this
  exact hl (Option.some.inj this)

theorem sends_refresh0 (p : Planner) (m : BufferInfos) (b l : Nat) (key : Nat × Nat) :
    sends b l (p.refresh0 m key) = sends b l (m key) := by
  unfold Planner.refresh0
  split_ifs
  · unfold sends
    rw [filter_filter]
    congr 2
    funext e
    cases e.isRecv <;> simp
  · rfl

theorem sends_rounds (hm : NoRecv m) {rs : List (Nat × Nat)} {l : Nat} (hl : l ∉ rs.map Prod.snd)
    {j z a : Nat} (ha : a ∈ p.ranks j) (hb : b ∈ p.ranks z) (hne : j ≠ z) (h0 : sends b l (m (j, a)) = []) :
    sends b l (rounds p m rs (j, a)) = [] := by
  induction rs generalizing m with
  | nil => exact h0
  | cons r rs ih =>
    simp only [map_cons, mem_cons, not_or] at hl
    refine ih hm.refresh0 hl.2 ?_
    have hperm := balanced_search p r.1 r.2 hm j z a b l ha hb hne
    rw [h0, recvs_other_loop p r.1 r.2 hm hl.1, append_nil] at hperm
    rw [sends_refresh0]
    exact hperm.eq_nil

end Pairing

/-! ## The lists of a planner -/

/-- The lists on which `findStrategy` starts a round. -/
inductive Reachable (p : Planner) : BufferInfos → Prop
  | start {m : BufferInfos} (h : p.refresh1 = some m) : Reachable p m
  | round {m : BufferInfos} (searchMethod loopId : Nat) (h : Reachable p m) :
    Reachable p (p.refresh0 (searchHeteroSendRecvOps p searchMethod loopId ⟨m, []⟩).infos)
  | regather {m : BufferInfos} (searchMethod loopId : Nat) (h : Reachable p m) :
    Reachable p (p.regather (p.refresh2 (searchHeteroSendRecvOps p searchMethod loopId ⟨m, []⟩).infos))

section Reachable
variable {p : Planner} {m : BufferInfos}

theorem noRecv_pushes {pushes : List BufferInfo} (hp : ∀ e ∈ pushes, e.isRecv = false) (hm : NoRecv m)
    (key : Nat × Nat) : NoRecv (pushes.foldl (fun m e => pushBackBufferInfo m key e) m) := by
  induction pushes generalizing m with
  | nil => exact hm
  | cons e pushes ih =>
    refine ih (fun x hx => hp x (mem_cons_of_mem _ hx)) fun key' => ?_
    change received (update m key (m key ++ [e]) key') = []
    by_cases hk : key' = key
    · rw [hk, update_self, received_append, hm key]
      simp [received, hp e mem_cons_self]
    · rw [update_of_ne hk]
      exact hm key'

theorem NoRecv.regatherStep (h : NoRecv m) (at' : Nat × Nat) : NoRecv (p.regatherStep m at') := by
  obtain ⟨i, j⟩ := at'
  refine noRecv_pushes ?_ (fun key => ?_) _
  · intro e he
    simp only [mem_flatMap, mem_map] at he
    obtain ⟨_, -, _, -, rfl⟩ := he
    rfl
  · by_cases hk : key = (i, (p.ranks i).getD j 0)
    · have hr := h (i, (p.ranks i).getD j 0)
      rw [received, filter_eq_nil_iff] at hr
      rw [hk, update_self, received, filter_eq_nil_iff]
      exact fun e he => hr e (mem_filter.1 he).1
    · rw [update_of_ne hk]
      exact h key

theorem NoRecv.regather (h : NoRecv m) : NoRecv (p.regather m) := by
  unfold Planner.regather
  generalize ((List.range p.nclusters).flatMap fun i => (List.range (p.ranks i).length).map fun j => (i, j)) = l
  induction l generalizing m with
  | nil => exact h
  | cons at' l ih => exact ih (h.regatherStep at')

theorem NoRecv.refresh2 (searchMethod loopId : Nat) (h : NoRecv m) :
    NoRecv (p.refresh2 (searchHeteroSendRecvOps p searchMethod loopId ⟨m, []⟩).infos) := by
  intro key
  have hf := fitted_search p searchMethod loopId h
  have hpeer : ∀ push ∈ (searchHeteroSendRecvOps p searchMethod loopId ⟨m, []⟩).pushed,
      push.info.peerRank.isSome = true := by
    refine search_induct (P := fun s => ∀ push ∈ s.pushed, push.info.peerRank.isSome = true) ?_ (by simp)
    intro job s k s' k' hjob hs hv
    cases hv with
    | skip hk => exact hs
    | place hk hlist hw hb hfits hrep hcut =>
      intro push hpush
      rcases mem_append.1 hpush with hold | hnew
      · exact hs push hold
      · obtain rfl := mem_singleton.1 hnew
        rfl
  have hr := hf.recvs key
  unfold Planner.refresh2
  split_ifs with hkey
  · rw [received, filter_filter, filter_eq_nil_iff]
    intro e he hc
    simp only [Bool.and_eq_true] at hc
    have hmem : e ∈ received ((searchHeteroSendRecvOps p searchMethod loopId ⟨m, []⟩).infos key) := mem_filter.2 ⟨he, hc.1⟩
    rw [hr, mem_map] at hmem
    obtain ⟨push, hpush, rfl⟩ := hmem
    have := hpeer push (mem_filter.1 hpush).1
    simp_all
  · rw [hr, map_eq_nil_iff, filter_eq_nil_iff]
    intro push hpush he
    exact hkey (by simpa using (of_decide_eq_true he) ▸ hf.home push hpush)

theorem Reachable.noRecv (h : Reachable p m) : NoRecv m := by
  induction h with
  | start h => exact noRecv_refresh1 h
  | round searchMethod loopId _ ih => exact ih.refresh0
  | regather searchMethod loopId _ ih => exact (ih.refresh2 searchMethod loopId).regather

end Reachable

/-! ## The contract of a round -/

def twoThreeComm : Comm where
  clusterInterRankList := [[0, 1], [2, 3, 4]]
  clusterIds r := if r < 2 then 0 else 1
  clusterSizes i := if i = 0 then 2 else 3
  nranks := 5
  member := member_two (by decide) (by decide)
  nodup := nodup_two (by decide) (by decide)

/-- An all-reduce of six elements on them: the shares of the clusters do not line up, so the search has to split. -/
def twoThreePlanner : Planner := ⟨twoThreeComm, 6, 6, none, .allReduce, false, true, false, .coarse, 0, 1, 0⟩


/-- **Every send has its receive.** In any round after any others, the ranges that `a` starts to send to `b` are the
ranges that `b` gets to receive from `a`; the sends of other loops stay as they are. When the loop is new, the two are
all sends and receives of the loop. -/
theorem sends_match_recvs {p : Planner} {m : BufferInfos} (h : p.refresh1 = some m) (rs : List (Nat × Nat))
    (searchMethod loopId : Nat) {j z a b : Nat} (ha : a ∈ p.ranks j) (hb : b ∈ p.ranks z) (hne : j ≠ z) :
    let before := rounds p m rs
    let after := (searchHeteroSendRecvOps p searchMethod loopId ⟨before, []⟩).infos
    (sends b loopId (after (j, a)) : Multiset (Nat × Nat)) =
        (sends b loopId (before (j, a)) : Multiset (Nat × Nat)) + (recvs a loopId (after (z, b)) : Multiset _) ∧
      (∀ l ≠ loopId, (sends b l (after (j, a)) : Multiset (Nat × Nat)) = sends b l (before (j, a))) ∧
      (∀ e ∈ after (z, b), e.isRecv = true → e.loopId = some loopId) ∧
      (loopId ∉ rs.map Prod.snd →
        (sends b loopId (after (j, a)) : Multiset (Nat × Nat)) = recvs a loopId (after (z, b))) := by
  intro before after
  have hno : NoRecv before := (noRecv_refresh1 h).rounds rs
  have hbal : ∀ l, (sends b l (after (j, a))).Perm (sends b l (before (j, a)) ++ recvs a l (after (z, b))) :=
    fun l => balanced_search p searchMethod loopId hno j z a b l ha hb hne
  refine ⟨?_, ?_, ?_, ?_⟩
  · exact Multiset.coe_eq_coe.2 (hbal loopId)
  · intro l hl
    have := hbal l
    rw [show recvs a l (after (z, b)) = [] from recvs_other_loop p searchMethod loopId hno hl a (z, b),
      append_nil] at this
    exact Multiset.coe_eq_coe.2 this
  · exact recv_loopId p searchMethod loopId hno (z, b)
  · intro hnew
    have h0 : sends b loopId (m (j, a)) = [] := by
      rw [sends, map_eq_nil_iff, filter_eq_nil_iff]
      intro e he
      obtain ⟨_, _, _, _, rfl⟩ := refresh1_sendInfo h he
      simp [Planner.sendInfo]
    have hz : sends b loopId (before (j, a)) = [] := sends_rounds (noRecv_refresh1 h) hnew ha hb hne h0
    have := hbal loopId
    rw [hz, nil_append] at this
    exact Multiset.coe_eq_coe.2 this

theorem sends_match_recvs_twoThree : ∃ m, twoThreePlanner.refresh1 = some m ∧
    let after := (searchHeteroSendRecvOps twoThreePlanner 1 0 ⟨m, []⟩).infos
    recvs 3 0 (after (0, 0)) = [(3, 1)] ∧ (sends 0 0 (after (1, 3)) : Multiset (Nat × Nat)) = recvs 3 0 (after (0, 0)) := by
  refine ⟨_, rfl, by decide +kernel, ?_⟩
  exact (sends_match_recvs rfl [] 1 0 (by decide) (by decide) (by decide)).2.2.2 not_mem_nil

/-- **Splitting loses and duplicates nothing.** After any number of rounds, and after the search of the next one, the
sends from cluster `j` to cluster `z` cover every element as often as the lists of `refresh(1)` do. -/
theorem rounds_conserve_coverage {p : Planner} {m : BufferInfos} (_h : p.refresh1 = some m) (rs : List (Nat × Nat))
    (searchMethod loopId j z x : Nat) :
    coverage p (rounds p m rs) j z x = coverage p m j z x ∧
      coverage p (searchHeteroSendRecvOps p searchMethod loopId ⟨rounds p m rs, []⟩).infos j z x =
        coverage p m j z x := by
  constructor
  · simp only [coverage, covered_rounds]
  · simp only [coverage, covered_search, covered_rounds]

theorem rounds_conserve_coverage_twoThree : ∃ m, twoThreePlanner.refresh1 = some m ∧ coverage twoThreePlanner m 1 0 3 = 1 ∧
    coverage twoThreePlanner (rounds twoThreePlanner m [(1, 0)]) 1 0 3 = coverage twoThreePlanner m 1 0 3 := by
  refine ⟨_, rfl, by decide +kernel, ?_⟩
  exact (rounds_conserve_coverage rfl [(1, 0)] 1 1 1 0 3).1

/-- **No receive overwrites live data.** In any round, a pushed receive shares no element with any info of the list it
is pushed on, and the receives of one inter-rank, which are the ones pushed in this round, are pairwise disjoint. -/
theorem receives_disjoint {p : Planner} {m : BufferInfos} (h : Reachable p m) (searchMethod loopId : Nat) :
    let out := searchHeteroSendRecvOps p searchMethod loopId ⟨m, []⟩
    (∀ push ∈ out.pushed, ∀ e ∈ push.before, push.info.Disjoint e) ∧
      ∀ key, received (out.infos key) = (out.pushed.filter fun push => push.key = key).map Push.info ∧
        (received (out.infos key)).Pairwise BufferInfo.Disjoint := by
  intro out
  have hf := fitted_search p searchMethod loopId h.noRecv
  exact ⟨hf.fits, fun key => ⟨hf.recvs key, hf.pairwise key⟩⟩

theorem receives_disjoint_twoThree : ∃ m, twoThreePlanner.refresh1 = some m ∧
    let out := searchHeteroSendRecvOps twoThreePlanner 1 0 ⟨m, []⟩
    (received (out.infos (0, 0))).length = 2 ∧ (received (out.infos (0, 0))).Pairwise BufferInfo.Disjoint := by
  refine ⟨_, rfl, by decide +kernel, ?_⟩
  exact ((receives_disjoint (.start rfl) 1 0).2 (0, 0)).2

end FlagCX.C2c
