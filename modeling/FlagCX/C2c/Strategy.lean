import FlagCX.C2c.Rounds

/-!
# The hetero functions of `findStrategy`

The search loop of the multi-NIC branch of `findStrategy`: a round of the search, the hetero functions of each step,
the second phase of a pipelined all-reduce, and the next round as long as something is left to schedule.

* `heteroFunc` : the operations that the planner of a rank emits in a loop for a step.
* `search_agree` : in a round on lists that are `Orderly`, the ranges `a` sends to `b` and those `b` receives from `a`
  stand in the same order. A visit that places a whole range schedules it in place, one that splits it moves the
  pieces to the back, so the argument needs that no range to the same cluster still waits behind a split one.
* `heteroOps_agree` : what this says of the emitted operations.
-/

namespace FlagCX.C2c
open List Function

structure P2pOp where
  rank : Nat
  peerRank : Option Nat
  offset : Nat
  count : Nat
  isRecv : Bool
  deriving DecidableEq, Repr

namespace Planner

/-- `nPipePreSteps_ + nSeqInterSteps_ + nPipePostSteps_`. -/
def totalSteps (p : Planner) : Nat := p.nPipePreSteps + p.nSeqInterSteps + p.nPipePostSteps

/-- The lists that the planner of `rank` walks to emit its operations. -/
def rankList (p : Planner) (m : BufferInfos) (rank : Nat) : List BufferInfo :=
  (List.range p.nclusters).flatMap fun j => ((p.ranks j).filter fun r => r = rank).flatMap fun _ => m (j, rank)

/-- An all-gather with one NIC per rank sends from the user's send buffer, hence from offset zero. -/
def opOffset (p : Planner) (e : BufferInfo) : Nat :=
  if e.isRecv = false ∧ p.commOp = .allGather ∧ p.eachNicPerRank = true then 0 else e.offset

/-- `(sendClusterId + nclusters - 1 - recvClusterId) % nclusters`. -/
def clusterStep (p : Planner) (rank peer : Nat) (isRecv : Bool) : Nat :=
  let sendClusterId := if isRecv then p.comm.clusterIds peer else p.comm.clusterIds rank
  let recvClusterId := if isRecv then p.comm.clusterIds rank else p.comm.clusterIds peer
  (sendClusterId + p.nclusters - 1 - recvClusterId) % p.nclusters

def firstStep (p : Planner) (rank : Nat) (e : BufferInfo) : Option Nat :=
  if 1 < p.totalSteps then e.peerRank.map fun peer => p.clusterStep rank peer e.isRecv else some 0

/-- The operations emitted after the round of loop `i`. -/
def firstOps (p : Planner) (m : BufferInfos) (i rank step : Nat) : List P2pOp :=
  ((p.rankList m rank).filter fun e =>
    e.isScheduled && e.loopId == some i && p.firstStep rank e == some step).map fun e =>
      ⟨rank, e.peerRank, p.opOffset e, e.count, e.isRecv⟩

def secondStep (p : Planner) (rank : Nat) (e : BufferInfo) : Option Nat :=
  e.peerRank.bind fun peer =>
    if p.comm.clusterIds peer = p.comm.clusterIds rank then none
    else some (p.clusterStep rank peer e.isRecv + p.nclusters - 1)

/-- The operations emitted after the second phase of a pipelined all-reduce. -/
def secondOps (p : Planner) (m : BufferInfos) (rank step : Nat) : List P2pOp :=
  ((p.rankList m rank).filter fun e => e.isScheduled && p.secondStep rank e == some step).map fun e =>
    ⟨rank, e.peerRank, e.offset, e.count, e.isRecv⟩

def twoPhase (p : Planner) : Bool := p.commOp == .allReduce && p.pipeline

/-- The lists after the round of loop `i`. -/
def firstRound (p : Planner) (m : BufferInfos) (i : Nat) : BufferInfos := (searchHeteroSendRecvOps p 1 i ⟨m, []⟩).infos

/-- The lists on which the second phase of loop `i` searches. -/
def secondLists (p : Planner) (m : BufferInfos) (i : Nat) : BufferInfos := p.regather (p.refresh2 (p.firstRound m i))

def secondRound (p : Planner) (m : BufferInfos) (i : Nat) : BufferInfos :=
  (searchHeteroSendRecvOps p 1 0 ⟨p.secondLists m i, []⟩).infos

/-- The hetero function of a step in loop `i`, as the planner of `rank` builds it. -/
def heteroFunc (p : Planner) (m : BufferInfos) (i rank step : Nat) : List P2pOp :=
  p.firstOps (p.firstRound m i) i rank step ++
    if p.twoPhase then p.secondOps (p.secondRound m i) rank step else []

def scheduleCompleted (p : Planner) (m : BufferInfos) : Prop :=
  ∀ j < p.nclusters, ∀ r ∈ p.ranks j, ∀ e ∈ m (j, r), e.isScheduled = true

instance (p : Planner) (m : BufferInfos) : Decidable (p.scheduleCompleted m) :=
  inferInstanceAs (Decidable (∀ _ < _, ∀ _ ∈ _, ∀ _ ∈ _, _))

/-- The lists at the start of loop `i`; `none` when the loops ended before it. -/
def loopStart (p : Planner) (m : BufferInfos) : Nat → Option BufferInfos
  | 0 => some m
  | i + 1 => (p.loopStart m i).bind fun m =>
    if p.scheduleCompleted (p.firstRound m i) then none
    else some (p.refresh0 (if p.twoPhase then p.secondRound m i else p.firstRound m i))

end Planner

/-- The ranges that a hetero function sends to `b`, in order. -/
def opSends (b : Nat) (ops : List P2pOp) : List (Nat × Nat) :=
  (ops.filter fun op => !op.isRecv && op.peerRank == some b).map fun op => (op.offset, op.count)

/-- The ranges that a hetero function receives from `a`, in order. -/
def opRecvs (a : Nat) (ops : List P2pOp) : List (Nat × Nat) :=
  (ops.filter fun op => op.isRecv && op.peerRank == some a).map fun op => (op.offset, op.count)

/-! ## The order of one round -/

/-- The sends to `z` that no round has placed yet. -/
def unplaced (z : Nat) (l : List BufferInfo) : List BufferInfo :=
  l.filter fun e => !e.isScheduled && !e.isRecv && e.clusterIdToSend == z

def OnGrid (u : Nat) (m : BufferInfos) : Prop := ∀ key, ∀ e ∈ m key, u ∣ e.offset ∧ e.count = u

/-- At most one range of each inter-rank waits for each cluster, or all ranges are cells of one grid. -/
def Orderly (m : BufferInfos) : Prop := (∀ key z, (unplaced z (m key)).length ≤ 1) ∨ ∃ u, OnGrid u m

variable {key : Nat × Nat}

section Grid
variable {p : Planner} {loopId : Nat} {job : Job} {s s' : SearchState} {k k' u : Nat}

theorem OnGrid.no_candidate {m : BufferInfos} (h : OnGrid u m) {it : BufferInfo}
    (hi : u ∣ it.offset) (hc : it.count = u) {piece : Nat × PushMode} :
    ¬ Candidate (m key) it.offset it.count piece := by
  rintro ⟨info, hmem, hoffer⟩
  obtain ⟨⟨q, hq⟩, hcount⟩ := h key info hmem
  obtain ⟨r, hr⟩ := hi
  rw [hc, hr] at hoffer
  rcases hoffer with ⟨⟨hov, -⟩, -⟩ | ⟨⟨hov, -⟩, -⟩
  · rw [hq] at hov
    have h1 : r < q := Nat.lt_of_mul_lt_mul_left hov.1
    have h2 : u * q < u * (r + 1) := by rw [Nat.mul_succ]; exact hov.2
    have h3 : q < r + 1 := Nat.lt_of_mul_lt_mul_left h2
    omega
  · rw [hq, hcount] at hov
    have h1 : u * r < u * (q + 1) := by rw [Nat.mul_succ]; exact hov.2.1
    have h2 : u * (q + 1) < u * (r + 1) := by rw [Nat.mul_succ, Nat.mul_succ]; exact hov.2.2
    have h3 : r < q + 1 := Nat.lt_of_mul_lt_mul_left h1
    have h4 : q + 1 < r + 1 := Nat.lt_of_mul_lt_mul_left h2
    omega

theorem OnGrid.visited (h : OnGrid u s.infos) (hv : Visited p loopId job s k s' k') : OnGrid u s'.infos := by
  cases hv with
  | skip hk => exact h
  | @place b offset count _ it pre post l hk hlist hw hb hfits hrep hcut =>
    have hit := h (job.src, job.rank p) it (by simp [hlist])
    cases hrep with
    | piece mode hpos hlt ho =>
      rcases hcut with he | ⟨mode', hcand⟩
      · omega
      · exact absurd hcand (h.no_candidate hit.1 hit.2)
    | whole ho hc =>
      intro key e he
      rw [place_infos] at he
      split_ifs at he with h1 h2
      · rcases mem_append.1 he with hpre | hpost
        · exact h (job.src, job.rank p) e (by simp [hlist, hpre])
        · rcases mem_cons.1 hpost with rfl | hpost
          · exact hit
          · exact h (job.src, job.rank p) e (by simp [hlist, hpost])
      · rcases mem_append.1 he with hold | hnew
        · exact h key e hold
        · obtain rfl := mem_singleton.1 hnew
          subst ho hc
          exact hit
      · exact h key e he

end Grid

variable {e : BufferInfo}

section Order
variable {p : Planner} {loopId : Nat} {job : Job} {s s' : SearchState} {k k' j z a b : Nat}

theorem unplaced_append (z : Nat) (l l' : List BufferInfo) : unplaced z (l ++ l') = unplaced z l ++ unplaced z l' :=
  filter_append ..

theorem unplaced_cons (z : Nat) (e : BufferInfo) (l : List BufferInfo) :
    unplaced z (e :: l) = unplaced z [e] ++ unplaced z l := by
  rw [← unplaced_append, singleton_append]

theorem unplaced_wanted {it : BufferInfo} (h : wanted job it) : unplaced job.dst [it] = [it] := by
  simp [unplaced, h.1, h.2.1, h.2.2]

theorem unplaced_scheduled (h : e.isScheduled = true) : unplaced z [e] = [] := by simp [unplaced, h]

theorem unplaced_other (h : e.clusterIdToSend ≠ z) : unplaced z [e] = [] := by simp [unplaced, h]

theorem Visited.frame (hjob : job.Valid p) (hv : Visited p loopId job s k s' k') (ha : a ∈ p.ranks j)
    (hb : b ∈ p.ranks z) (hother : ¬ (job.src = j ∧ job.dst = z ∧ job.rank p = a)) (l : Nat) :
    sends b l (s'.infos (j, a)) = sends b l (s.infos (j, a)) ∧ recvs a l (s'.infos (z, b)) = recvs a l (s.infos (z, b)) ∧
      unplaced z (s'.infos (j, a)) = unplaced z (s.infos (j, a)) := by
  cases hv with
  | skip hk => exact ⟨rfl, rfl, rfl⟩
  | @place b₁ offset count _ it pre post list hk hlist hw hb₁ hfits hrep hcut =>
    refine ⟨?_, ?_, ?_⟩
    · rw [place_infos]
      split_ifs with h1 h2
      · obtain ⟨rfl, rfl⟩ := Prod.mk.inj h1
        have hne : b ≠ b₁ := fun he => hother ⟨rfl, p.cluster_unique hb₁ (he ▸ hb), rfl⟩
        have hnew : ∀ e : BufferInfo, e.peerRank = some b₁ → sends b l [e] = [] := by
          intro e he
          simp [sends, he, Ne.symm hne]
        rw [hlist]
        cases hrep with
        | whole ho hc =>
          rw [sends_append, sends_append, sends_cons, sends_cons b l it, hnew _ rfl, sends_unscheduled hw.1]
        | piece mode hpos hlt ho =>
          rw [sends_append, sends_append, sends_append, sends_cons, hnew _ rfl, sends_unscheduled rfl,
            sends_cons b l it, sends_unscheduled hw.1]
          simp
      · simp [sends, recvInfo]
      · rfl
    · rw [place_recvs hjob.ne hlist hw.2.1 hrep]
      split_ifs with h
      · obtain ⟨hzb, rfl, -⟩ := h
        exact absurd ⟨p.cluster_unique hjob.rank_mem ha, (Prod.mk.inj hzb).1.symm, rfl⟩ hother
      · rw [append_nil]
    · rw [place_infos]
      split_ifs with h1 h2
      · obtain ⟨rfl, rfl⟩ := Prod.mk.inj h1
        have hne : job.dst ≠ z := fun he => hother ⟨rfl, he, rfl⟩
        have hit : ∀ e : BufferInfo, e.clusterIdToSend = it.clusterIdToSend → unplaced z [e] = [] := by
          intro e he
          exact unplaced_other (by rw [he, hw.2.2]; exact hne)
        rw [hlist]
        cases hrep with
        | whole ho hc =>
          rw [unplaced_append, unplaced_append, unplaced_cons, unplaced_cons z it, unplaced_scheduled rfl,
            hit it rfl]
        | piece mode hpos hlt ho =>
          have hrest := hit ⟨mode.restOffset it.offset count, it.count - count, it.clusterIdToSend, false, false, none,
            none⟩ rfl
          rw [unplaced_append, unplaced_append, unplaced_append, unplaced_cons, unplaced_scheduled rfl, hrest,
            unplaced_cons z it, hit it rfl]
          simp
      · simp [unplaced, recvInfo]
      · rfl

/-- The walk for the pair is at position `k`: sends and receives agree, and no range that still waits has one of this
loop behind it. -/
structure InOrder (p : Planner) (loopId : Nat) (job : Job) (b : Nat) (s : SearchState) (k : Nat) : Prop where
  agree : sends b loopId (s.infos (job.src, job.rank p)) = recvs (job.rank p) loopId (s.infos (job.dst, b))
  tail : ∀ n it, k ≤ n → (s.infos (job.src, job.rank p))[n]? = some it → wanted job it →
    sends b loopId ((s.infos (job.src, job.rank p)).drop (n + 1)) = []
  orderly : (unplaced job.dst (s.infos (job.src, job.rank p))).length ≤ 1 ∨ ∃ u, OnGrid u s.infos

theorem sends_drop {l : List BufferInfo} {lp : Nat} (h : sends b lp l = []) (n : Nat) : sends b lp (l.drop n) = [] := by
  rw [← take_append_drop n l, sends_append] at h
  exact (append_eq_nil_iff.1 h).2

theorem InOrder.visited (h : InOrder p loopId job b s k) (hjob : job.Valid p)
    (hv : Visited p loopId job s k s' k') : InOrder p loopId job b s' k' := by
  cases hv with
  | skip hk => exact ⟨h.agree, fun n it hn => h.tail n it (by omega), h.orderly⟩
  | @place b₁ offset count _ it pre post list hk hlist hw hb₁ hfits hrep hcut =>
    subst hk
    have hpost : sends b loopId post = [] := by
      have := h.tail pre.length it le_rfl (by simp [hlist]) hw
      rw [hlist, ← singleton_append, ← append_assoc, drop_left' (by simp)] at this
      exact this
    have hself : (s.place p loopId job b₁ offset count list).infos (job.src, job.rank p) = list := by
      rw [place_infos, if_pos rfl]
    have hrecv : recvs (job.rank p) loopId ((s.place p loopId job b₁ offset count list).infos (job.dst, b)) =
        recvs (job.rank p) loopId (s.infos (job.dst, b)) ++ if b = b₁ then [(offset, count)] else [] := by
      rw [place_recvs hjob.ne hlist hw.2.1 hrep]
      by_cases hbb : b = b₁ <;> simp [hbb]
    have hold : sends b loopId pre = recvs (job.rank p) loopId (s.infos (job.dst, b)) := by
      rw [← h.agree, hlist, sends_append, sends_cons, sends_unscheduled hw.1, hpost]
      simp
    have hgrid : (∃ u, OnGrid u s.infos) → ∃ u, OnGrid u (s.place p loopId job b₁ offset count list).infos := by
      rintro ⟨u, hu⟩
      exact ⟨u, hu.visited (.place rfl hlist hw hb₁ hfits hrep hcut)⟩
    cases hrep with
    | whole ho hc =>
      have hnew := sends_placed (e := { it with isScheduled := true, peerRank := some b₁, loopId := some loopId }) rfl
        hw.2.1 rfl rfl b loopId
      refine ⟨?_, ?_, ?_⟩
      · rw [hself, hrecv, sends_append, sends_cons, hnew, hpost, hold, append_nil, ho, hc]
        simp
      · intro n it' hn _ _
        rw [hself]
        have hd : (pre ++ { it with isScheduled := true, peerRank := some b₁, loopId := some loopId } :: post).drop
            (n + 1) = post.drop (n - pre.length) := by
          rw [drop_append]
          have h1 : n + 1 - pre.length = (n - pre.length) + 1 := by omega
          rw [h1, drop_succ_cons, drop_eq_nil_of_le (by omega), nil_append]
        rw [hd]
        exact sends_drop hpost _
      · refine h.orderly.imp (fun hone => ?_) hgrid
        rw [hself, unplaced_append, unplaced_cons, unplaced_scheduled rfl]
        rw [hlist, unplaced_append, unplaced_cons, unplaced_wanted hw] at hone
        simp only [length_append, length_cons, length_nil] at hone ⊢
        omega
    | piece mode hpos hlt ho =>
      -- only the last range that waits for the cluster may be split; on a grid none is
      have hone : (unplaced job.dst (s.infos (job.src, job.rank p))).length ≤ 1 := by
        rcases h.orderly with hone | ⟨u, hu⟩
        · exact hone
        · have hit := hu (job.src, job.rank p) it (by simp [hlist])
          rcases hcut with he | ⟨mode', hcand⟩
          · omega
          · exact absurd hcand (hu.no_candidate hit.1 hit.2)
      have hlast : unplaced job.dst post = [] := by
        rw [hlist, unplaced_append, unplaced_cons, unplaced_wanted hw] at hone
        simp only [length_append, length_cons, length_nil] at hone
        exact eq_nil_of_length_eq_zero (by omega)
      have hnew := sends_placed (e := ⟨offset, count, it.clusterIdToSend, false, true, some b₁, some loopId⟩) rfl rfl rfl
        rfl b loopId
      refine ⟨?_, ?_, .inl ?_⟩
      · rw [hself, hrecv, sends_append, sends_append, sends_cons, hnew, sends_unscheduled rfl, hpost, hold]
        simp
      · intro n it' hn hget hw'
        rw [hself] at hget ⊢
        obtain ⟨i, rfl⟩ := Nat.exists_eq_add_of_le hn
        rw [append_assoc, getElem?_append_right (by omega), Nat.add_sub_cancel_left] at hget
        rcases Nat.lt_trichotomy i post.length with hi | hi | hi
        · rw [getElem?_append_left hi] at hget
          have hmem : it' ∈ unplaced job.dst post := mem_filter.2 ⟨mem_of_getElem? hget, by simp [hw'.1, hw'.2.1, hw'.2.2]⟩
          rw [hlast] at hmem
          exact absurd hmem not_mem_nil
        · subst hi
          rw [getElem?_append_right le_rfl, Nat.sub_self] at hget
          obtain rfl := Option.some.inj hget
          exact absurd hw'.1 (by simp)
        · rw [drop_eq_nil_of_le (by simp; omega)]
          rfl
      · rw [hself, unplaced_append, unplaced_append, unplaced_cons, unplaced_scheduled rfl, hlast]
        rw [hlist, unplaced_append, unplaced_cons, unplaced_wanted hw] at hone
        simp only [length_append, length_cons, length_nil, nil_append, append_nil] at hone ⊢
        have hle : (unplaced job.dst [(⟨mode.restOffset it.offset count, it.count - count, it.clusterIdToSend, false,
            false, none, none⟩ : BufferInfo)]).length ≤ 1 := by
          exact (length_filter_le _ _)
        omega

theorem nodup_pairs (n : Nat) (len : Nat → Nat → Nat) (f : Nat → Nat → Nat → Job)
    (hf : ∀ j z r j' z' r', f j z r = f j' z' r' → j = j' ∧ z = z' ∧ r = r') :
    ((List.range n).flatMap fun j => (List.range' (j + 1) (n - (j + 1))).flatMap fun z =>
      (List.range (len j z)).map fun r => f j z r).Nodup := by
  rw [nodup_flatMap]
  refine ⟨fun j _ => ?_, ?_⟩
  · rw [nodup_flatMap]
    refine ⟨fun z _ => nodup_range.map fun r r' he => (hf _ _ _ _ _ _ he).2.2, ?_⟩
    refine List.Pairwise.imp ?_ nodup_range'
    intro z z' hne
    simp only [Function.onFun, disjoint_left, mem_map]
    rintro _ ⟨r, -, rfl⟩ ⟨r', -, he⟩
    exact hne (hf _ _ _ _ _ _ he).2.1.symm
  · refine List.Pairwise.imp ?_ nodup_range
    intro j j' hne
    simp only [Function.onFun, disjoint_left, mem_map, mem_flatMap]
    rintro _ ⟨z, -, r, -, rfl⟩ ⟨z', -, r', -, he⟩
    exact hne (hf _ _ _ _ _ _ he).1.symm

theorem searchJobs_nodup (p : Planner) : (searchJobs p).Nodup := by
  unfold searchJobs
  rw [nodup_append]
  refine ⟨?_, ?_, ?_⟩
  · exact nodup_pairs p.nclusters (fun j _ => (p.ranks j).length) (fun j z r => ⟨j, z, r⟩)
      fun _ _ _ _ _ _ he => Job.mk.inj he
  · refine nodup_pairs p.nclusters (fun _ z => (p.ranks z).length) (fun j z r => ⟨z, j, r⟩) ?_
    intro j z r j' z' r' he
    have := Job.mk.inj he
    exact ⟨this.2.1, this.1, this.2.2⟩
  · intro x hx y hy he
    simp only [mem_flatMap, mem_map, mem_range'_1] at hx hy
    obtain ⟨j, -, z, hz, r, -, rfl⟩ := hx
    obtain ⟨j', -, z', hz', r', -, rfl⟩ := hy
    have := Job.mk.inj he
    omega

theorem mem_searchJobs_of {r : Nat} (hj : j < p.nclusters) (hz : z < p.nclusters) (hne : j ≠ z)
    (hr : r < (p.ranks j).length) : (⟨j, z, r⟩ : Job) ∈ searchJobs p := by
  simp only [searchJobs, mem_append, mem_flatMap, mem_map, mem_range, mem_range'_1]
  rcases Nat.lt_or_gt_of_ne hne with h | h
  · exact .inl ⟨j, hj, z, by omega, r, hr, rfl⟩
  · exact .inr ⟨z, hz, j, by omega, r, hr, rfl⟩

theorem lt_nclusters {r : Nat} (h : r ∈ p.ranks j) : j < p.nclusters := by
  by_contra hn
  have he : p.ranks j = [] := by
    simp only [Planner.ranks, getD_eq_getElem?_getD]
    rw [getElem?_eq_none (by unfold Planner.nclusters at hn; omega)]
    rfl
  rw [he] at h
  exact absurd h not_mem_nil

theorem searchJobs_split (ha : a ∈ p.ranks j) (hb : b ∈ p.ranks z) (hne : j ≠ z) :
    ∃ js job js', searchJobs p = js ++ job :: js' ∧ job.src = j ∧ job.dst = z ∧ job.rank p = a ∧
      (∀ x ∈ js, ¬ (x.src = j ∧ x.dst = z ∧ x.rank p = a)) ∧ ∀ x ∈ js', ¬ (x.src = j ∧ x.dst = z ∧ x.rank p = a) := by
  obtain ⟨r, hr, hra⟩ := mem_iff_getElem.1 ha
  obtain ⟨js, js', hsplit⟩ := append_of_mem (mem_searchJobs_of (lt_nclusters ha) (lt_nclusters hb) hne hr)
  have hnd := searchJobs_nodup p
  have hrank : ∀ r' (h : r' < (p.ranks j).length), (Job.mk j z r').rank p = (p.ranks j)[r'] := by
    intro r' h
    simp [Job.rank, h]
  -- a second walk of the pair would be the same job
  have huniq : ∀ x ∈ searchJobs p, x.src = j → x.dst = z → x.rank p = a → x = ⟨j, z, r⟩ := by
    rintro ⟨j', z', r'⟩ hx rfl rfl hxa
    have hr' : r' < (p.ranks j').length := by
      simp only [searchJobs, mem_append, mem_flatMap, mem_map, mem_range, Job.mk.injEq] at hx
      rcases hx with ⟨_, -, _, -, r₁, h₁, rfl, -, rfl⟩ | ⟨_, -, _, -, r₁, h₁, rfl, -, rfl⟩ <;> exact h₁
    rw [hrank r' hr', ← hra] at hxa
    have hinj := (List.Nodup.getElem_inj_iff (p.comm.nodup j')).1 hxa
    rw [hinj]
  rw [hsplit] at hnd huniq
  have hdis := nodup_append.1 hnd
  refine ⟨js, ⟨j, z, r⟩, js', hsplit, rfl, rfl, by rw [hrank r hr, hra], ?_, ?_⟩
  · rintro x hx ⟨h1, h2, h3⟩
    have he := huniq x (mem_append_left _ hx) h1 h2 h3
    exact hdis.2.2 x hx ⟨j, z, r⟩ mem_cons_self he
  · rintro x hx ⟨h1, h2, h3⟩
    have he := huniq x (mem_append_right _ (mem_cons_of_mem _ hx)) h1 h2 h3
    exact (nodup_cons.1 hdis.2.1).1 (he ▸ hx)

/-- **In an orderly round the sends of a pair stand in the order of its receives.** -/
theorem search_agree (searchMethod : Nat) {m : BufferInfos} (hm : NoRecv m) (ho : Orderly m) (ha : a ∈ p.ranks j)
    (hb : b ∈ p.ranks z) (hne : j ≠ z) (h0 : sends b loopId (m (j, a)) = []) :
    sends b loopId ((searchHeteroSendRecvOps p searchMethod loopId ⟨m, []⟩).infos (j, a)) =
      recvs a loopId ((searchHeteroSendRecvOps p searchMethod loopId ⟨m, []⟩).infos (z, b)) := by
  obtain ⟨js, job, js', hsplit, rfl, rfl, rfl, hjs, hjs'⟩ := searchJobs_split ha hb hne
  have hvalid : ∀ x ∈ searchJobs p, x.Valid p := fun _ hx => mem_searchJobs hx
  rw [hsplit] at hvalid
  have hv : job.Valid p := hvalid job (mem_append_right _ mem_cons_self)
  unfold searchHeteroSendRecvOps
  rw [hsplit, foldl_append, foldl_cons]
  -- before the walk of the pair nothing is sent or received
  let Before : SearchState → Prop := fun s =>
    sends b loopId (s.infos (job.src, job.rank p)) = [] ∧ recvs (job.rank p) loopId (s.infos (job.dst, b)) = [] ∧
      ((unplaced job.dst (s.infos (job.src, job.rank p))).length ≤ 1 ∨ ∃ u, OnGrid u s.infos)
  have hbefore : Before (js.foldl (fun s job => scan p searchMethod loopId job s) ⟨m, []⟩) := by
    refine scans_induct (P := Before) (fun x hx => hvalid x (mem_append_left _ hx)) ?_ ?_
    · intro x hx s k s' k' hs hvis
      obtain ⟨h1, h2, h3⟩ := hvis.frame (hvalid x (mem_append_left _ hx)) ha hb (hjs x hx) loopId
      refine ⟨h1.trans hs.1, h2.trans hs.2.1, ?_⟩
      rcases hs.2.2 with hone | ⟨u, hu⟩
      · exact .inl (by rw [h3]; exact hone)
      · exact .inr ⟨u, hu.visited hvis⟩
    · exact ⟨h0, hm.recvs _ _ _, ho.imp (fun h => h _ _) id⟩
  generalize js.foldl (fun s job => scan p searchMethod loopId job s) ⟨m, []⟩ = s at hbefore
  have hin : InOrder p loopId job b s 0 :=
    ⟨hbefore.1.trans hbefore.2.1.symm, fun n _ _ _ _ => sends_drop hbefore.1 _, hbefore.2.2⟩
  obtain ⟨k, hk⟩ : ∃ k, InOrder p loopId job b (scan p searchMethod loopId job s) k :=
    scanFrom_induct hv.ne (fun _ _ _ _ h hvis => h.visited hv hvis) hin
  -- the walks after it leave the pair alone
  refine scans_induct (P := fun s => sends b loopId (s.infos (job.src, job.rank p)) =
    recvs (job.rank p) loopId (s.infos (job.dst, b)))
    (fun x hx => hvalid x (mem_append_right _ (mem_cons_of_mem _ hx))) ?_ hk.agree
  intro x hx s k s' k' hs hvis
  obtain ⟨h1, h2, -⟩ := hvis.frame (hvalid x (mem_append_right _ (mem_cons_of_mem _ hx))) ha hb (hjs' x hx) loopId
  rw [h1, h2, hs]

end Order

/-! ## The emitted operations -/

namespace Planner

def pairStep (p : Planner) (a b : Nat) : Nat := if 1 < p.totalSteps then p.clusterStep a b false else 0

def sendRange (p : Planner) (r : Nat × Nat) : Nat × Nat :=
  if p.commOp = .allGather ∧ p.eachNicPerRank = true then (0, r.2) else r

end Planner

section Emission
variable {p : Planner} {m : BufferInfos} {i j z a b step : Nat}

theorem flatMap_single {α : Type} {f : Nat → List α} {l : List Nat} {x : Nat} (hx : x ∈ l) (hl : l.Nodup)
    (hf : ∀ y ∈ l, y ≠ x → f y = []) : l.flatMap f = f x := by
  induction l with
  | nil => exact absurd hx not_mem_nil
  | cons y l ih =>
    rw [flatMap_cons]
    rcases mem_cons.1 hx with rfl | hx
    · rw [flatMap_eq_nil_iff.2, append_nil]
      intro y hy
      exact hf y (mem_cons_of_mem _ hy) fun he => (nodup_cons.1 hl).1 (he ▸ hy)
    · have hyx : y ≠ x := fun he => (nodup_cons.1 hl).1 (he ▸ hx)
      rw [hf y mem_cons_self hyx, nil_append]
      exact ih hx (nodup_cons.1 hl).2 fun w hw => hf w (mem_cons_of_mem _ hw)

theorem rankList_eq (ha : a ∈ p.ranks j) : p.rankList m a = m (j, a) := by
  unfold Planner.rankList
  rw [flatMap_single (mem_range.2 (lt_nclusters ha)) nodup_range]
  · rw [flatMap_single (f := fun _ => m (j, a)) (x := a)]
    · exact mem_filter.2 ⟨ha, by simp⟩
    · exact (p.comm.nodup j).filter _
    · intro y hy hne
      exact absurd (of_decide_eq_true (mem_filter.1 hy).2) hne
  · intro j' _ hne
    rw [filter_eq_nil_iff.2, flatMap_nil]
    intro r hr he
    exact hne (p.cluster_unique (of_decide_eq_true he ▸ hr) ha)

theorem clusterStep_swap (p : Planner) (a b : Nat) : p.clusterStep b a true = p.clusterStep a b false := rfl

theorem opSends_append (b : Nat) (ops ops' : List P2pOp) : opSends b (ops ++ ops') = opSends b ops ++ opSends b ops' := by
  simp [opSends]

theorem opRecvs_append (a : Nat) (ops ops' : List P2pOp) : opRecvs a (ops ++ ops') = opRecvs a ops ++ opRecvs a ops' := by
  simp [opRecvs]

theorem filter_map_congr {α β : Type} {l : List α} {P Q : α → Bool} {f g : α → β} (hP : ∀ e ∈ l, P e = Q e)
    (hf : ∀ e ∈ l, Q e = true → f e = g e) : (l.filter P).map f = (l.filter Q).map g := by
  rw [filter_congr hP]
  exact map_congr_left fun e he => hf e (mem_filter.1 he).1 (mem_filter.1 he).2

theorem opSends_firstOps (ha : a ∈ p.ranks j) :
    opSends b (p.firstOps m i a step) =
      if p.pairStep a b = step then (sends b i (m (j, a))).map p.sendRange else [] := by
  unfold opSends Planner.firstOps sends
  rw [rankList_eq ha, filter_map, map_map, filter_filter, map_map]
  have hstep : ∀ e : BufferInfo, e.isRecv = false → e.peerRank = some b → p.firstStep a e = some (p.pairStep a b) := by
    intro e hr hb
    simp only [Planner.firstStep, Planner.pairStep, hb, hr, Option.map_some]
    split_ifs <;> rfl
  split_ifs with hs
  · refine filter_map_congr (fun e _ => ?_) fun e _ he => ?_
    · cases hr : e.isRecv
      · by_cases hb : e.peerRank = some b
        · simp [hb, hr, hstep e hr hb, hs, Bool.and_comm]
        · simp [beq_eq_false_iff_ne.2 hb]
      · simp [hr]
    · simp only [Bool.and_eq_true, Bool.not_eq_true'] at he
      simp only [Function.comp, Planner.opOffset, Planner.sendRange, he.1.1.2, true_and]
      split_ifs <;> rfl
  · rw [map_eq_nil_iff, filter_eq_nil_iff]
    intro e _ he
    simp only [Function.comp, Bool.and_eq_true, Bool.not_eq_true', beq_iff_eq] at he
    rw [hstep e he.1.1 he.1.2] at he
    exact hs (Option.some.inj he.2.2)

theorem opRecvs_firstOps (hb : b ∈ p.ranks z) :
    opRecvs a (p.firstOps m i b step) = if p.pairStep a b = step then recvs a i (m (z, b)) else [] := by
  unfold opRecvs Planner.firstOps recvs
  rw [rankList_eq hb, filter_map, map_map, filter_filter]
  have hstep : ∀ e : BufferInfo, e.isRecv = true → e.peerRank = some a → p.firstStep b e = some (p.pairStep a b) := by
    intro e hr ha
    simp only [Planner.firstStep, Planner.pairStep, ha, hr, Option.map_some, clusterStep_swap]
    split_ifs <;> rfl
  split_ifs with hs
  · refine filter_map_congr (fun e _ => ?_) fun e _ he => ?_
    · cases hr : e.isRecv
      · simp [hr]
      · by_cases ha : e.peerRank = some a
        · simp [ha, hr, hstep e hr ha, hs]
        · simp [beq_eq_false_iff_ne.2 ha]
    · simp only [Bool.and_eq_true] at he
      simp [Function.comp, Planner.opOffset, he.1.1.2]
  · rw [map_eq_nil_iff, filter_eq_nil_iff]
    intro e _ he
    simp only [Function.comp, Bool.and_eq_true, beq_iff_eq] at he
    rw [hstep e he.1.1 he.1.2] at he
    exact hs (Option.some.inj he.2.2)

/-- Whatever has a peer belongs to loop `l`. -/
def PeersIn (l : Nat) (m : BufferInfos) (key : Nat × Nat) : Prop := ∀ e ∈ m key, e.peerRank ≠ none → e.loopId = some l

theorem secondStep_eq {rank peer : Nat} (hp : e.peerRank = some peer)
    (hne : p.comm.clusterIds peer ≠ p.comm.clusterIds rank) :
    p.secondStep rank e = some (p.clusterStep rank peer e.isRecv + p.nclusters - 1) := by
  simp [Planner.secondStep, hp, hne]

theorem opSends_secondOps (ha : a ∈ p.ranks j) (hne : p.comm.clusterIds b ≠ p.comm.clusterIds a) (hl : PeersIn i m (j, a)) :
    opSends b (p.secondOps m a step) =
      if p.clusterStep a b false + p.nclusters - 1 = step then sends b i (m (j, a)) else [] := by
  unfold opSends Planner.secondOps sends
  rw [rankList_eq ha, filter_map, map_map, filter_filter]
  split_ifs with hs
  · refine filter_map_congr (fun e he => ?_) fun e _ _ => rfl
    cases hr : e.isRecv
    · by_cases hb : e.peerRank = some b
      · simp [hb, hr, secondStep_eq hb hne, hs, hl e he (by simp [hb])]
      · simp [beq_eq_false_iff_ne.2 hb]
    · simp [hr]
  · rw [map_eq_nil_iff, filter_eq_nil_iff]
    intro e _ he
    simp only [Function.comp, Bool.and_eq_true, Bool.not_eq_true', beq_iff_eq] at he
    rw [secondStep_eq he.1.2 hne, he.1.1] at he
    exact hs (Option.some.inj he.2.2)

theorem opRecvs_secondOps (hb : b ∈ p.ranks z) (hne : p.comm.clusterIds a ≠ p.comm.clusterIds b) (hl : PeersIn i m (z, b)) :
    opRecvs a (p.secondOps m b step) =
      if p.clusterStep a b false + p.nclusters - 1 = step then recvs a i (m (z, b)) else [] := by
  unfold opRecvs Planner.secondOps recvs
  rw [rankList_eq hb, filter_map, map_map, filter_filter]
  split_ifs with hs
  · refine filter_map_congr (fun e he => ?_) fun e _ _ => rfl
    cases hr : e.isRecv
    · simp [hr]
    · by_cases ha : e.peerRank = some a
      · simp [ha, hr, secondStep_eq ha hne, clusterStep_swap, hs, hl e he (by simp [ha])]
      · simp [beq_eq_false_iff_ne.2 ha]
  · rw [map_eq_nil_iff, filter_eq_nil_iff]
    intro e _ he
    simp only [Function.comp, Bool.and_eq_true, beq_iff_eq] at he
    rw [secondStep_eq he.1.2 hne, he.1.1, clusterStep_swap] at he
    exact hs (Option.some.inj he.2.2)

end Emission

/-! ## The loops -/

section Loops
variable {p : Planner} {m : BufferInfos} {i j z a b : Nat}

theorem PeersIn.search {loopId searchMethod : Nat} (h : ∀ key, p.isInterRank key → PeersIn loopId m key) (hkey : p.isInterRank key) :
    PeersIn loopId (searchHeteroSendRecvOps p searchMethod loopId ⟨m, []⟩).infos key := by
  refine search_induct (P := fun s => PeersIn loopId s.infos key) ?_ (h key hkey)
  intro job s k s' k' hjob hs hv
  cases hv with
  | skip hk => exact hs
  | @place b offset count _ it pre post l hk hlist hw hb hfits hrep hcut =>
    intro e he hp
    rw [place_infos] at he
    split_ifs at he with h1 h2
    · subst h1
      cases hrep with
      | whole ho hc =>
        simp only [mem_append, mem_cons] at he
        rcases he with he | rfl | he
        · exact hs e (by simp [hlist, he]) hp
        · rfl
        · exact hs e (by simp [hlist, he]) hp
      | piece mode hpos hlt ho =>
        simp only [mem_append, mem_cons, not_mem_nil, or_false] at he
        rcases he with (he | he) | rfl | rfl
        · exact hs e (by simp [hlist, he]) hp
        · exact hs e (by simp [hlist, he]) hp
        · rfl
        · exact absurd rfl hp
    · rcases mem_append.1 he with hold | hnew
      · exact hs e hold hp
      · obtain rfl := mem_singleton.1 hnew
        rfl
    · exact hs e he hp

def NoPeer (m : BufferInfos) (key : Nat × Nat) : Prop := ∀ e ∈ m key, e.peerRank = none

theorem NoPeer.sends (h : NoPeer m key) (b l : Nat) : sends b l (m key) = [] := by
  rw [C2c.sends, map_eq_nil_iff, filter_eq_nil_iff]
  intro e he
  simp [h e he]

theorem noPeer_pushes {pushes : List BufferInfo} (hp : ∀ e ∈ pushes, e.peerRank = none) {key' : Nat × Nat}
    (hm : NoPeer m key) : NoPeer (pushes.foldl (fun m e => pushBackBufferInfo m key' e) m) key := by
  induction pushes generalizing m with
  | nil => exact hm
  | cons e pushes ih =>
    refine ih (fun x hx => hp x (mem_cons_of_mem _ hx)) ?_
    intro x hx
    change x ∈ update m key' (m key' ++ [e]) key at hx
    by_cases hk : key = key'
    · subst hk
      rw [update_self] at hx
      rcases mem_append.1 hx with hx | hx
      · exact hm x hx
      · obtain rfl := mem_singleton.1 hx
        exact hp x mem_cons_self
    · rw [update_of_ne hk] at hx
      exact hm x hx

theorem NoPeer.regather (h : NoPeer m key) : NoPeer (p.regather m) key := by
  unfold Planner.regather
  generalize ((List.range p.nclusters).flatMap fun i => (List.range (p.ranks i).length).map fun j => (i, j)) = l
  induction l generalizing m with
  | nil => exact h
  | cons at' l ih =>
    obtain ⟨i, j⟩ := at'
    refine ih (noPeer_pushes ?_ ?_)
    · intro e he
      simp only [mem_flatMap, mem_map] at he
      obtain ⟨_, -, _, -, rfl⟩ := he
      rfl
    · intro e he
      by_cases hk : key = (i, (p.ranks i).getD j 0)
      · subst hk
        rw [update_self] at he
        exact h e (mem_filter.1 he).1
      · rw [update_of_ne hk] at he
        exact h e he

theorem noPeer_secondLists (p : Planner) (m : BufferInfos) (i : Nat) (key : Nat × Nat) (hkey : p.isInterRank key) :
    NoPeer (p.secondLists m i) key := by
  refine NoPeer.regather ?_
  intro e he
  rw [Planner.refresh2, if_pos hkey] at he
  simpa using (mem_filter.1 he).2

variable {m₀ : BufferInfos}

section

variable (h : p.refresh1 = some m₀) (hl : p.loopStart m₀ i = some m)
include h hl

theorem loopStart_reachable : Reachable p m := by
  induction i generalizing m with
  | zero =>
    obtain rfl := Option.some.inj hl
    exact .start h
  | succ i ih =>
    simp only [Planner.loopStart, Option.bind_eq_some_iff] at hl
    obtain ⟨m', hm', hl⟩ := hl
    split_ifs at hl with hc ht
    · obtain rfl := Option.some.inj hl
      exact .round 1 0 (.regather 1 i (ih hm'))
    · obtain rfl := Option.some.inj hl
      exact .round 1 i (ih hm')

theorem sends_loopStart (ha : a ∈ p.ranks j) (hb : b ∈ p.ranks z) (hne : j ≠ z) {l : Nat} (hil : i ≤ l) :
    sends b l (m (j, a)) = [] := by
  induction i generalizing m with
  | zero =>
    obtain rfl := Option.some.inj hl
    refine NoPeer.sends (fun e he => ?_) b l
    obtain ⟨_, _, _, _, rfl⟩ := refresh1_sendInfo h he
    rfl
  | succ i ih =>
    simp only [Planner.loopStart, Option.bind_eq_some_iff] at hl
    obtain ⟨m', hm', hl⟩ := hl
    -- a round adds sends only in its own loop
    have hround : ∀ {m : BufferInfos} {loopId : Nat}, NoRecv m → l ≠ loopId → sends b l (m (j, a)) = [] →
        sends b l (p.refresh0 (searchHeteroSendRecvOps p 1 loopId ⟨m, []⟩).infos (j, a)) = [] := by
      intro m loopId hno hlo h0
      have hperm := balanced_search p 1 loopId hno j z a b l ha hb hne
      rw [h0, recvs_other_loop p 1 loopId hno hlo, append_nil] at hperm
      rw [sends_refresh0]
      exact hperm.eq_nil
    have hno := (loopStart_reachable h hm').noRecv
    split_ifs at hl with hc ht
    · obtain rfl := Option.some.inj hl
      exact hround (hno.refresh2 1 i).regather (by omega) ((noPeer_secondLists p m' i (j, a) ha).sends b l)
    · obtain rfl := Option.some.inj hl
      exact hround hno (by omega) (ih hm' (by omega))

end

/-- The searches of loop `i` start on orderly lists. -/
def OrderlyLoop (p : Planner) (m : BufferInfos) (i : Nat) : Prop :=
  Orderly m ∧ (p.twoPhase = true → Orderly (p.secondLists m i))

theorem map_sendRange (l : List (Nat × Nat)) (h : p.twoPhase = true) : l.map p.sendRange = l := by
  have hop : p.commOp ≠ .allGather := by
    intro he
    simp [Planner.twoPhase, he] at h
  have hid : p.sendRange = id := by
    funext r
    simp [Planner.sendRange, hop]
  rw [hid, map_id]

theorem heteroFunc_related {R : List (Nat × Nat) → List (Nat × Nat) → Prop} (hnil : R [] [])
    (happ : ∀ l₁ l₂ k₁ k₂, R l₁ k₁ → R l₂ k₂ → R (l₁ ++ l₂) (k₁ ++ k₂))
    (hmap : ∀ l k, R l k → R (l.map p.sendRange) (k.map p.sendRange)) (ha : a ∈ p.ranks j) (hb : b ∈ p.ranks z)
    (hne : j ≠ z) (hfirst : R (sends b i (p.firstRound m i (j, a))) (recvs a i (p.firstRound m i (z, b))))
    (hsecond : p.twoPhase = true → R (sends b 0 (p.secondRound m i (j, a))) (recvs a 0 (p.secondRound m i (z, b))))
    (step : Nat) :
    R (opSends b (p.heteroFunc m i a step)) ((opRecvs a (p.heteroFunc m i b step)).map p.sendRange) := by
  have hab : p.comm.clusterIds a ≠ p.comm.clusterIds b := by
    rw [p.comm.member j a ha, p.comm.member z b hb]
    exact hne
  have hpeers : ∀ key, p.isInterRank key → PeersIn 0 (p.secondRound m i) key := by
    intro key hkey
    exact PeersIn.search (fun key' hkey' e he hp => absurd (noPeer_secondLists p m i key' hkey' e he) hp) hkey
  unfold Planner.heteroFunc
  rw [opSends_append, opRecvs_append, opSends_firstOps ha, opRecvs_firstOps hb, map_append]
  refine happ _ _ _ _ ?_ ?_
  · split_ifs
    · exact hmap _ _ hfirst
    · exact hnil
  · by_cases ht : p.twoPhase = true
    · rw [if_pos ht, if_pos ht, opSends_secondOps ha hab.symm (hpeers (j, a) ha),
        opRecvs_secondOps hb hab (hpeers (z, b) hb), map_sendRange _ ht]
      split_ifs
      · exact hsecond ht
      · exact hnil
    · rw [if_neg ht, if_neg ht]
      exact hnil

/-! ## Coarse search -/

theorem unplaced_visited {loopId k k' : Nat} {job : Job} {s s' : SearchState} (hv : Visited p loopId job s k s' k')
    (key : Nat × Nat) (z : Nat) : (unplaced z (s'.infos key)).length ≤ (unplaced z (s.infos key)).length := by
  cases hv with
  | skip hk => exact le_rfl
  | @place b offset count _ it pre post l hk hlist hw hb hfits hrep hcut =>
    rw [place_infos]
    split_ifs with h1 h2
    · subst h1
      rw [hlist, unplaced_append, unplaced_cons z it, length_append, length_append]
      cases hrep with
      | whole ho hc =>
        rw [unplaced_append, unplaced_cons, unplaced_scheduled rfl, nil_append, length_append]
        omega
      | piece mode hpos hlt ho =>
        have hrest : (unplaced z [(⟨mode.restOffset it.offset count, it.count - count, it.clusterIdToSend, false, false,
            none, none⟩ : BufferInfo)]).length = (unplaced z [it]).length := by
          by_cases hz : it.clusterIdToSend = z <;> simp [unplaced, hw.1, hw.2.1, hz]
        rw [unplaced_append, unplaced_append, unplaced_cons, unplaced_scheduled rfl, nil_append,
          length_append, length_append, hrest]
        omega
    · have hr : unplaced z [recvInfo offset count (job.rank p) loopId] = [] := unplaced_scheduled rfl
      rw [unplaced_append, hr, append_nil]
    · exact le_rfl

theorem unplaced_search (searchMethod loopId : Nat) (key : Nat × Nat) (z : Nat) :
    (unplaced z (p.refresh0 (searchHeteroSendRecvOps p searchMethod loopId ⟨m, []⟩).infos key)).length ≤
      (unplaced z (m key)).length := by
  have hs : (unplaced z ((searchHeteroSendRecvOps p searchMethod loopId ⟨m, []⟩).infos key)).length ≤
      (unplaced z (m key)).length := by
    refine search_induct (P := fun s => (unplaced z (s.infos key)).length ≤ (unplaced z (m key)).length) ?_ le_rfl
    intro job s k s' k' _ h hv
    exact (unplaced_visited hv key z).trans h
  refine le_trans ?_ hs
  unfold Planner.refresh0 unplaced
  split_ifs
  · exact (filter_sublist.filter _).length_le
  · exact le_rfl

theorem countP_flatMap_le_one {α : Type} {q : α → Bool} {f : Nat → List α} {l : List Nat} (hl : l.Nodup)
    (hone : ∀ x ∈ l, (f x).countP q ≤ 1)
    (huniq : ∀ x ∈ l, ∀ y ∈ l, (f x).countP q ≠ 0 → (f y).countP q ≠ 0 → x = y) : (l.flatMap f).countP q ≤ 1 := by
  induction l with
  | nil => simp
  | cons x l ih =>
    rw [flatMap_cons, countP_append]
    by_cases hx : (f x).countP q = 0
    · rw [hx, Nat.zero_add]
      exact ih (nodup_cons.1 hl).2 (fun y hy => hone y (mem_cons_of_mem _ hy))
        fun y hy w hw => huniq y (mem_cons_of_mem _ hy) w (mem_cons_of_mem _ hw)
    · have hz : (l.flatMap f).countP q = 0 := by
        rw [countP_flatMap, List.sum_eq_zero_iff_forall_eq_nat]
        intro n hn
        obtain ⟨y, hy, rfl⟩ := mem_map.1 hn
        by_contra hne
        have he := huniq x mem_cons_self y (mem_cons_of_mem _ hy) hx hne
        exact (nodup_cons.1 hl).1 (he ▸ hy)
      rw [hz]
      exact hone x mem_cons_self

theorem unplaced_sequentialInfos (hc : p.granularity = .coarse) (i j z z' : Nat) :
    (unplaced z (p.sequentialInfos i j z')).length ≤ if z' = z then 1 else 0 := by
  unfold Planner.sequentialInfos
  by_cases hu : i = z' ∨ p.isUseless i = true
  · simp [hu, unplaced]
  · rw [if_neg hu]
    by_cases hz : z' = z
    · rw [if_pos hz]
      refine (length_filter_le _ _).trans ?_
      have hone : ∀ n : Nat, (if 0 < n then n / n else 0) ≤ 1 := by
        intro n
        split_ifs with hn
        · exact (Nat.div_self hn).le
        · exact Nat.zero_le _
      simp only [hc, if_true, length_map, length_range]
      exact hone _
    · simp [unplaced, Planner.sendInfo, hz]

def waiting (key : Nat × Nat) (z : Nat) (push : (Nat × Nat) × BufferInfo) : Bool :=
  decide (push.1 = key) && (!push.2.isScheduled && !push.2.isRecv && push.2.clusterIdToSend == z)

theorem unplaced_pushes (key : Nat × Nat) (z : Nat) (pushes : List ((Nat × Nat) × BufferInfo)) :
    (unplaced z ((pushes.filter fun push => push.1 = key).map Prod.snd)).length = pushes.countP (waiting key z) := by
  rw [unplaced, filter_map, length_map, filter_filter, countP_eq_length_filter]
  congr 2
  funext push
  rw [Bool.and_comm]
  rfl

theorem waiting_map {r : Nat} (l : List BufferInfo) :
    (l.map fun e => ((i, r), e)).countP (waiting key z) = if (i, r) = key then (unplaced z l).length else 0 := by
  rw [countP_map]
  split_ifs with h
  · rw [unplaced, ← countP_eq_length_filter]
    refine countP_congr fun e _ => ?_
    simp [waiting, h]
  · rw [countP_eq_zero]
    intro e _
    simp [waiting, h]

theorem unplaced_refresh1 (h : p.refresh1 = some m) (hc : p.granularity = .coarse) (hp : p.pipelined = false)
    (key : Nat × Nat) (z : Nat) : (unplaced z (m key)).length ≤ 1 := by
  unfold Planner.refresh1 at h
  split_ifs at h
  obtain rfl := Option.some.inj h
  rw [unplaced_pushes, Planner.initialPushes, hp]
  have hcell : ∀ i j z', ((p.sequentialInfos i j z').map fun e => ((i, (p.ranks i).getD j 0), e)).countP
      (waiting key z) ≤ if z' = z then 1 else 0 := by
    intro i j z'
    rw [waiting_map]
    split_ifs with h1 h2
    · simpa [h2] using unplaced_sequentialInfos hc i j z z'
    · simpa [h2] using unplaced_sequentialInfos hc i j z z'
    · exact Nat.zero_le _
    · exact le_rfl
  -- what is counted at `(i, j)` has the key of that inter-rank
  have hrow : ∀ i j, ((List.range p.nclusters).flatMap fun z' => (p.sequentialInfos i j z').map fun e =>
      ((i, (p.ranks i).getD j 0), e)).countP (waiting key z) ≠ 0 → (i, (p.ranks i).getD j 0) = key := by
    intro i j hne
    obtain ⟨push, hmem, hw⟩ := countP_pos_iff.1 (Nat.pos_of_ne_zero hne)
    simp only [mem_flatMap, mem_map] at hmem
    obtain ⟨_, -, _, -, rfl⟩ := hmem
    simp only [waiting, Bool.and_eq_true, decide_eq_true_eq] at hw
    exact hw.1
  refine countP_flatMap_le_one nodup_range (fun i _ => ?_) fun x _ y _ hx hy => ?_
  · refine countP_flatMap_le_one nodup_range (fun j _ => ?_) fun x hx y hy hx' hy' => ?_
    · refine countP_flatMap_le_one nodup_range (fun z' _ => ?_) fun x _ y _ hx hy => ?_
      · exact (hcell i j z').trans (by split_ifs <;> omega)
      · have hz : ∀ w, ((p.sequentialInfos i j w).map fun e => ((i, (p.ranks i).getD j 0), e)).countP (waiting key z) ≠ 0 →
            w = z := by
          intro w hw
          by_contra hn
          exact hw (Nat.le_zero.1 (by simpa [hn] using hcell i j w))
        rw [hz x hx, hz y hy]
    · have he : (p.ranks i).getD x 0 = (p.ranks i).getD y 0 := by
        have := (hrow i x hx').trans (hrow i y hy').symm
        exact (Prod.mk.inj this).2
      rw [mem_range, Planner.nClusterInterRanks] at hx hy
      split_ifs at hx hy
      · rw [getD_eq_getElem?_getD, getD_eq_getElem?_getD, getElem?_eq_getElem hx,
          getElem?_eq_getElem hy] at he
        exact (List.Nodup.getElem_inj_iff (p.comm.nodup i)).1 he
      · omega
  · have hplane : ∀ i, ((List.range (p.nClusterInterRanks i)).flatMap fun j => (List.range p.nclusters).flatMap fun z' =>
        (p.sequentialInfos i j z').map fun e => ((i, (p.ranks i).getD j 0), e)).countP (waiting key z) ≠ 0 → i = key.1 := by
      intro i hne
      obtain ⟨push, hmem, hw⟩ := countP_pos_iff.1 (Nat.pos_of_ne_zero hne)
      simp only [mem_flatMap, mem_map] at hmem
      obtain ⟨_, -, _, -, _, -, rfl⟩ := hmem
      simp only [waiting, Bool.and_eq_true, decide_eq_true_eq] at hw
      rw [← hw.1]
    rw [hplane x hx, hplane y hy]

theorem unplaced_loopStart (h : p.refresh1 = some m₀) (hc : p.granularity = .coarse)
    (hp : p.pipelined = false) (hl : p.loopStart m₀ i = some m) (key : Nat × Nat) (z : Nat) :
    (unplaced z (m key)).length ≤ 1 := by
  have ht : p.twoPhase = false := by
    unfold Planner.pipelined at hp
    unfold Planner.twoPhase
    revert hp
    cases p.pipeline <;> cases p.commOp <;> simp
  induction i generalizing m with
  | zero =>
    obtain rfl := Option.some.inj hl
    exact unplaced_refresh1 h hc hp key z
  | succ i ih =>
    simp only [Planner.loopStart, Option.bind_eq_some_iff, ht, Bool.false_eq_true, if_false] at hl
    obtain ⟨m', hm', hl⟩ := hl
    split_ifs at hl with hdone
    obtain rfl := Option.some.inj hl
    exact (unplaced_search 1 i key z).trans (ih hm')

/-! ## Sends and receives of the emitted functions -/

section

variable (h : p.refresh1 = some m₀) (hl : p.loopStart m₀ i = some m) (ha : a ∈ p.ranks j) (hb : b ∈ p.ranks z) (hne : j ≠ z)
include h hl ha hb hne

theorem heteroFunc_perm (step : Nat) :
    (opSends b (p.heteroFunc m i a step)).Perm ((opRecvs a (p.heteroFunc m i b step)).map p.sendRange) := by
  have hno := (loopStart_reachable h hl).noRecv
  refine heteroFunc_related (R := List.Perm) (List.Perm.refl _) (fun _ _ _ _ h1 h2 => h1.append h2)
    (fun _ _ h => h.map _) ha hb hne ?_ (fun _ => ?_) step
  · have hbal := balanced_search p 1 i hno j z a b i ha hb hne
    rw [sends_loopStart h hl ha hb hne le_rfl, nil_append] at hbal
    exact hbal
  · have hno' : NoRecv (p.secondLists m i) := (hno.refresh2 1 i).regather
    have hbal := balanced_search p 1 0 hno' j z a b 0 ha hb hne
    rw [(noPeer_secondLists p m i (j, a) ha).sends b 0, nil_append] at hbal
    exact hbal

theorem heteroFunc_agree (ho : OrderlyLoop p m i) (step : Nat) :
    opSends b (p.heteroFunc m i a step) = (opRecvs a (p.heteroFunc m i b step)).map p.sendRange := by
  have hno := (loopStart_reachable h hl).noRecv
  refine heteroFunc_related (R := Eq) rfl (fun _ _ _ _ h1 h2 => by rw [h1, h2]) (fun _ _ h => by rw [h]) ha hb hne ?_
    (fun ht => ?_) step
  · exact search_agree 1 hno ho.1 ha hb hne (sends_loopStart h hl ha hb hne le_rfl)
  · exact search_agree 1 (hno.refresh2 1 i).regather (ho.2 ht) ha hb hne ((noPeer_secondLists p m i (j, a) ha).sends b 0)

end

end Loops

/-- **Order agreement of the emitted operations.** What `a` sends to `b` is what `b` receives from `a`, in the same order
whenever the loop starts on orderly lists, and in every loop of a coarse search without the pipelined split. -/
theorem heteroOps_agree {p : Planner} {m₀ m : BufferInfos} {i j z a b : Nat} (h : p.refresh1 = some m₀)
    (hl : p.loopStart m₀ i = some m) (ha : a ∈ p.ranks j) (hb : b ∈ p.ranks z) (hne : j ≠ z) (step : Nat) :
    let sent := opSends b (p.heteroFunc m i a step)
    let received := (opRecvs a (p.heteroFunc m i b step)).map p.sendRange
    sent.Perm received ∧ (OrderlyLoop p m i → sent = received) ∧
      (p.granularity = .coarse → p.pipelined = false → sent = received) := by
  intro sent received
  refine ⟨heteroFunc_perm h hl ha hb hne step, fun ho => heteroFunc_agree h hl ha hb hne ho step, fun hc hp => ?_⟩
  have ht : p.twoPhase = true → Orderly (p.secondLists m i) := by
    intro ht
    simp only [Planner.twoPhase, Bool.and_eq_true, beq_iff_eq] at ht
    simp [Planner.pipelined, ht.1, ht.2] at hp
  exact heteroFunc_agree h hl ha hb hne ⟨.inl (unplaced_loopStart h hc hp hl), ht⟩ step

theorem heteroOps_agree_twoThree : ∃ m, twoThreePlanner.refresh1 = some m ∧
    opRecvs 3 (twoThreePlanner.heteroFunc m 0 0 0) = [(3, 1)] ∧
    opSends 0 (twoThreePlanner.heteroFunc m 0 3 0) =
      (opRecvs 3 (twoThreePlanner.heteroFunc m 0 0 0)).map twoThreePlanner.sendRange := by
  refine ⟨_, rfl, by decide +kernel, ?_⟩
  have ha : 3 ∈ twoThreePlanner.ranks 1 := by decide
  have hb : 0 ∈ twoThreePlanner.ranks 0 := by decide
  exact (heteroOps_agree rfl rfl ha hb (by decide) 0).2.2 rfl rfl

def twoTwoComm : Comm where
  clusterInterRankList := [[0, 1], [2, 3]]
  clusterIds r := if r < 2 then 0 else 1
  clusterSizes _ := 2
  nranks := 4
  member := member_two (by decide) (by decide)
  nodup := nodup_two (by decide) (by decide)

def allGatherPlanner : Planner := ⟨twoTwoComm, 1, 4, none, .allGather, false, true, true, .coarse, 0, 1, 0⟩

/-- Rank 1 sends its element from offset 0 of its send buffer, rank 3 receives it at offset 1. -/
theorem allGather_offsets_differ : ¬ ∀ (p : Planner) (m₀ m : BufferInfos) (i j z a b step : Nat),
    p.refresh1 = some m₀ → p.loopStart m₀ i = some m → a ∈ p.ranks j → b ∈ p.ranks z → j ≠ z →
      opSends b (p.heteroFunc m i a step) = opRecvs a (p.heteroFunc m i b step) := by
  intro hall
  have h := hall allGatherPlanner _ _ 0 0 1 1 3 0 rfl rfl (by decide) (by decide) (by decide)
  revert h
  decide +kernel

end FlagCX.C2c
