import FlagCX.C2c.Planner

/-!
# What one visit of the search does

* `Visited` : the effect of `visit` on the table. It leaves it alone, or it places a range `(offset, count)` of one
  entry at an inter-rank `b` of the destination: `b` gets the receive, and the entry becomes scheduled in place
  (`Replaced.whole`) or is replaced at the back of its list by the placed piece and the rest (`Replaced.piece`).
* `visit_visited` : `visit` does that and nothing else.
* `search_induct` : what every visit preserves, a round preserves.
-/

namespace FlagCX.C2c
open List Function Option

section Visit
variable {p : Planner} {searchMethod loopId : Nat} {job : Job} {s s' : SearchState}

/-- What takes the place of the list `pre ++ it :: post` when the range `(offset, count)` of `it` is placed at `b`, and
the position of the walk afterwards. -/
inductive Replaced (loopId b : Nat) (it : BufferInfo) (offset count : Nat) (pre post : List BufferInfo) :
    List BufferInfo → Nat → Prop
  | whole (ho : offset = it.offset) (hc : count = it.count) : Replaced loopId b it offset count pre post
      (pre ++ { it with isScheduled := true, peerRank := some b, loopId := some loopId } :: post) (pre.length + 1)
  | piece (mode : PushMode) (hpos : 0 < count) (hlt : count < it.count)
      (ho : offset = mode.pieceOffset it.offset it.count count) :
    Replaced loopId b it offset count pre post
      (pre ++ post ++ [⟨offset, count, it.clusterIdToSend, false, true, some b, some loopId⟩,
        ⟨mode.restOffset it.offset count, it.count - count, it.clusterIdToSend, false, false, none, none⟩]) pre.length

/-- The state after a range is placed: the receive at `b`, and `l` as the list of the sender. -/
def SearchState.place (p : Planner) (loopId : Nat) (job : Job) (s : SearchState) (b offset count : Nat)
    (l : List BufferInfo) : SearchState :=
  ⟨update (pushBackBufferInfo s.infos (job.dst, b) (recvInfo offset count (job.rank p) loopId)) (job.src, job.rank p) l,
    s.pushed ++ [⟨(job.dst, b), recvInfo offset count (job.rank p) loopId, s.infos (job.dst, b)⟩]⟩

/-- The effect of one visit at position `k`: the next state and position. -/
inductive Visited (p : Planner) (loopId : Nat) (job : Job) (s : SearchState) (k : Nat) : SearchState → Nat → Prop
  | skip (hk : k < (s.infos (job.src, job.rank p)).length) : Visited p loopId job s k s (k + 1)
  | place {b offset count k' : Nat} {it : BufferInfo} {pre post l : List BufferInfo} (hk : pre.length = k)
      (hlist : s.infos (job.src, job.rank p) = pre ++ it :: post) (hwanted : wanted job it)
      (hb : b ∈ p.ranks job.dst) (hfits : checkIfPossibleToPush (s.infos (job.dst, b)) offset count = true)
      (hrep : Replaced loopId b it offset count pre post l k')
      (hcut : count = it.count ∨ ∃ mode, Candidate (s.infos (job.dst, b)) it.offset it.count (count, mode)) :
    Visited p loopId job s k (s.place p loopId job b offset count l) k'

/-- The jobs of the search: two clusters, and an inter-rank of the sender. -/
structure Job.Valid (p : Planner) (job : Job) : Prop where
  ne : job.src ≠ job.dst
  rank_mem : job.rank p ∈ p.ranks job.src

theorem getD_mem {l : List Nat} {i : Nat} (h : i < l.length) : l.getD i 0 ∈ l := by simp [List.getD, h]

variable {b : Nat}

theorem mem_of_directOrder (h : b ∈ directOrder p searchMethod job) : b ∈ p.ranks job.dst := by
  simp only [directOrder, List.mem_map, mem_range] at h
  obtain ⟨r2, hr, rfl⟩ := h
  apply getD_mem
  split_ifs
  · exact Nat.mod_lt _ (by omega)
  · exact hr

theorem mem_of_splitOrder (h : b ∈ splitOrder p job) : b ∈ p.ranks job.dst := by
  simp only [splitOrder, List.mem_map, mem_range] at h
  obtain ⟨r2, hr, rfl⟩ := h
  exact getD_mem (Nat.mod_lt _ (by omega))

variable {m : BufferInfos} {it : BufferInfo}

theorem directTarget_spec (h : directTarget p searchMethod job m it = some b) :
    b ∈ p.ranks job.dst ∧ checkIfPossibleToPush (m (job.dst, b)) it.offset it.count = true := by
  exact ⟨mem_of_directOrder (mem_of_find?_eq_some h), by simpa using find?_some h⟩

/-- The accumulator of the choice of a split: nothing yet, or a piece that the chosen inter-rank offers. -/
def SplitFound (p : Planner) (job : Job) (m : BufferInfos) (it : BufferInfo) (acc : Nat × PushMode × Nat) : Prop :=
  acc.1 ≠ 0 → acc.2.2 ∈ p.ranks job.dst ∧ Candidate (m (job.dst, acc.2.2)) it.offset it.count (acc.1, acc.2.1)

variable {acc : Nat × PushMode × Nat}

theorem SplitFound.splitPick
    (h : SplitFound p job m it acc) (hb : b ∈ p.ranks job.dst) : SplitFound p job m it (splitPick job m it acc b) := by
  unfold C2c.splitPick
  cases hsplit : checkIfPossibleToSplitAndPush (m (job.dst, b)) it.offset it.count with
  | none => exact h
  | some piece =>
    dsimp only
    split_ifs
    · exact fun _ => ⟨hb, checkIfPossibleToSplitAndPush_candidate hsplit⟩
    · exact h

theorem SplitFound.foldl {l : List Nat} (hl : ∀ b ∈ l, b ∈ p.ranks job.dst) (h : SplitFound p job m it acc) :
    SplitFound p job m it (l.foldl (C2c.splitPick job m it) acc) := by
  induction l generalizing acc with
  | nil => exact h
  | cons b l ih => exact ih (fun x hx => hl x (mem_cons_of_mem _ hx)) (h.splitPick (hl b mem_cons_self))

theorem splitTarget_spec (m : BufferInfos) (it : BufferInfo) : SplitFound p job m it (splitTarget p job m it) :=
  SplitFound.foldl (fun _ hb => mem_of_splitOrder hb) fun h0 => absurd rfl h0

theorem eq_append_of_getElem? {l : List BufferInfo} {k : Nat} {it : BufferInfo} (h : l[k]? = some it) :
    ∃ pre post, l = pre ++ it :: post ∧ pre.length = k := by
  obtain ⟨hk, rfl⟩ := List.getElem?_eq_some_iff.1 h
  refine ⟨l.take k, l.drop (k + 1), ?_, by simp [Nat.min_eq_left (Nat.le_of_lt hk)]⟩
  rw [getElem_cons_drop, take_append_drop]

theorem visit_visited (hjob : job.src ≠ job.dst) {k k' : Nat}
    (h : visit p searchMethod loopId job s k = some (s', k')) : Visited p loopId job s k s' k' := by
  unfold visit at h
  cases hit : (s.infos (job.src, job.rank p))[k]? with
  | none => simp [hit] at h
  | some it =>
    simp only [hit] at h
    have hk : k < (s.infos (job.src, job.rank p)).length := (List.getElem?_eq_some_iff.1 hit).1
    obtain ⟨pre, post, hsplit, hpre⟩ := eq_append_of_getElem? hit
    have hkey : ∀ b, (job.src, job.rank p) ≠ (job.dst, b) := fun b he => hjob (congrArg Prod.fst he)
    by_cases hw : wanted job it
    swap
    · simp only [hw, not_false_eq_true, if_true, some.injEq, Prod.mk.injEq] at h
      obtain ⟨rfl, rfl⟩ := h
      exact .skip hk
    simp only [hw, not_true, if_false] at h
    cases hd : directTarget p searchMethod job s.infos it with
    | some b =>
      simp only [hd, some.injEq, Prod.mk.injEq] at h
      obtain ⟨hb, hfits⟩ := directTarget_spec hd
      obtain ⟨hs, rfl⟩ := h
      have he : s' = s.place p loopId job b it.offset it.count
          (pre ++ { it with isScheduled := true, peerRank := some b, loopId := some loopId } :: post) := by
        rw [← hs]
        simp [SearchState.place, SearchState.pushRecv, pushBackBufferInfo, update_of_ne (hkey b), hsplit,
          ← hpre]
      rw [he, ← hpre]
      exact .place rfl hsplit hw hb hfits (.whole rfl rfl) (.inl rfl)
    | none =>
      simp only [hd] at h
      by_cases hz : (splitTarget p job s.infos it).1 = 0
      · simp only [hz, if_true, some.injEq, Prod.mk.injEq] at h
        obtain ⟨rfl, rfl⟩ := h
        exact .skip hk
      · simp only [hz, if_false, some.injEq, Prod.mk.injEq] at h
        obtain ⟨hb, hc⟩ := splitTarget_spec s.infos it hz
        generalize splitTarget p job s.infos it = target at h hb hc
        obtain ⟨count, mode, b⟩ := target
        obtain ⟨hs, rfl⟩ := h
        have he : s' = s.place p loopId job b (mode.pieceOffset it.offset it.count count) count
            (pre ++ post ++ [⟨mode.pieceOffset it.offset it.count count, count, it.clusterIdToSend, false, true,
              some b, some loopId⟩, ⟨mode.restOffset it.offset count, it.count - count, it.clusterIdToSend, false,
              false, none, none⟩]) := by
          rw [← hs]
          simp [SearchState.place, SearchState.pushRecv, pushBackBufferInfo, update_of_ne (hkey b), hsplit,
            eraseIdx_append_of_length_le, ← hpre]
        rw [he, ← hpre]
        exact .place rfl hsplit hw hb hc.possible (.piece mode hc.pos hc.lt rfl) (.inr ⟨mode, hc⟩)

theorem place_infos (b offset count : Nat) (l : List BufferInfo) (key : Nat × Nat) :
    (s.place p loopId job b offset count l).infos key =
      if key = (job.src, job.rank p) then l
      else if key = (job.dst, b) then s.infos key ++ [recvInfo offset count (job.rank p) loopId]
      else s.infos key := by
  simp only [SearchState.place, pushBackBufferInfo, update_apply]
  split_ifs with h1 h2
  · rfl
  · rw [h2]
  · rfl

/-! ## Rounds -/

def ahead (p : Planner) (job : Job) (s : SearchState) (k : Nat) : Nat :=
  (((s.infos (job.src, job.rank p)).drop k).map weight).sum

theorem weight_pos (e : BufferInfo) : 0 < weight e := by
  unfold weight
  split_ifs <;> omega

theorem ahead_lt {k k' : Nat} (h : Visited p loopId job s k s' k') : ahead p job s' k' < ahead p job s k := by
  cases h with
  | skip hk =>
    unfold ahead
    rw [drop_eq_getElem_cons hk, map_cons, sum_cons]
    have := weight_pos (s.infos (job.src, job.rank p))[k]
    omega
  | @place b offset count _ it pre post l hk hlist hw hb hfits hrep hcut =>
    subst hk
    have hweight : weight it = 2 * it.count + 1 := by simp [weight, hw.1]
    have hold : ahead p job s pre.length = weight it + (post.map weight).sum := by simp [ahead, hlist]
    rw [hold]
    cases hrep with
    | whole ho hc =>
      have hnew : ∀ x, ahead p job (s.place p loopId job b offset count (pre ++ x :: post)) (pre.length + 1) =
          (post.map weight).sum := by
        intro x
        have hdrop : (pre ++ x :: post).drop (pre.length + 1) = post := by
          rw [← singleton_append, ← append_assoc]
          exact drop_left' (by simp)
        rw [ahead, place_infos, if_pos rfl, hdrop]
      rw [hnew]
      omega
    | piece mode hpos hlt ho =>
      rw [ahead, place_infos, if_pos rfl, append_assoc, drop_left, map_append, sum_append]
      simp only [map_cons, map_nil, sum_cons, sum_nil, hweight]
      simp only [weight, if_true, Bool.false_eq_true, if_false]
      omega

end Visit

section Rounds
variable {p : Planner} {searchMethod loopId : Nat} {s : SearchState} {P : SearchState → Prop}

theorem mem_searchJobs {job : Job} (h : job ∈ searchJobs p) : job.Valid p := by
  simp only [searchJobs, mem_append, mem_flatMap, List.mem_map, mem_range, mem_range'_1] at h
  rcases h with ⟨j, -, z, hz, r1, hr, rfl⟩ | ⟨j, -, z, hz, r1, hr, rfl⟩
  · exact ⟨by simp only; omega, getD_mem hr⟩
  · exact ⟨by simp only; omega, getD_mem hr⟩

theorem scanFrom_induct {Q : SearchState → Nat → Prop} {job : Job} (hjob : job.src ≠ job.dst)
    (hstep : ∀ s k s' k', Q s k → Visited p loopId job s k s' k' → Q s' k') {fuel k : Nat} (h : Q s k) :
    ∃ k', Q (scanFrom p searchMethod loopId job fuel s k) k' := by
  induction fuel generalizing s k with
  | zero => exact ⟨k, h⟩
  | succ fuel ih =>
    unfold scanFrom
    cases hv : visit p searchMethod loopId job s k with
    | none => exact ⟨k, h⟩
    | some next => exact ih (hstep _ _ _ _ h (visit_visited hjob hv))

theorem scans_induct {jobs : List Job} (hjobs : ∀ job ∈ jobs, job.Valid p)
    (hstep : ∀ job ∈ jobs, ∀ s k s' k', P s → Visited p loopId job s k s' k' → P s') (h : P s) :
    P (jobs.foldl (fun s job => scan p searchMethod loopId job s) s) := by
  induction jobs generalizing s with
  | nil => exact h
  | cons job jobs ih =>
    refine ih (fun x hx => hjobs x (mem_cons_of_mem _ hx)) (fun x hx => hstep x (mem_cons_of_mem _ hx)) ?_
    exact (scanFrom_induct (Q := fun s _ => P s) (hjobs job mem_cons_self).ne (hstep job mem_cons_self) h).choose_spec

/-- **What every visit preserves, a round preserves.** -/
theorem search_induct (hstep : ∀ job s k s' k', job.Valid p → P s → Visited p loopId job s k s' k' → P s') (h : P s) :
    P (searchHeteroSendRecvOps p searchMethod loopId s) :=
  scans_induct (fun _ hj => mem_searchJobs hj) (fun job hj s k s' k' => hstep job s k s' k' (mem_searchJobs hj)) h

end Rounds

end FlagCX.C2c
