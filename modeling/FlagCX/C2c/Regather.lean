import FlagCX.C2c.Progress

/-!
# The second phase of a pipelined all-reduce

Between the two searches of a loop, `findStrategy` erases what is scheduled and queues every range an inter-rank keeps
for its own cluster as a send to each other cluster.

* `heldOf` : the ranges kept for the own cluster; no visit changes them (`Visited.heldOf`).
* `regather_apply` : the lists after the re-queueing. The ranges of inter-rank number `j` of cluster `i` arrive at rank
  `j + clusterOffset i`, whichever rank that is (`arrivals`).
* `Mixed` : what every later round starts on, ranges of both phases; `mixed_secondLists`, `Mixed.round`.
-/

namespace FlagCX.C2c
open List Function

def heldOf (l : List BufferInfo) : List BufferInfo := l.filter fun e => e.isScheduled && e.peerRank.isNone

namespace Planner

/-- The sends that a kept range becomes in cluster `i`. -/
def regathered (p : Planner) (i : Nat) (e : BufferInfo) : List BufferInfo :=
  ((range p.nclusters).filter fun c => c ≠ i).map fun c => sendInfo e.offset e.count c false

/-- The inter-ranks by cluster and number. -/
def places (p : Planner) : List (Nat × Nat) :=
  (range p.nclusters).flatMap fun i => (range (p.ranks i).length).map fun j => (i, j)

/-- The list that inter-rank number `j` of cluster `i` has. -/
def ownKey (p : Planner) (at' : Nat × Nat) : Nat × Nat := (at'.1, (p.ranks at'.1).getD at'.2 0)

def pushKey (p : Planner) (at' : Nat × Nat) : Nat × Nat := (at'.1, at'.2 + p.clusterOffset at'.1)

/-- What the second phase pushes for inter-rank number `j` of cluster `i`. -/
def pushesOf (p : Planner) (m : BufferInfos) (at' : Nat × Nat) : List BufferInfo :=
  (heldOf (m (p.ownKey at'))).flatMap (p.regathered at'.1)

def arrivals (p : Planner) (m : BufferInfos) (key : Nat × Nat) : List BufferInfo :=
  (p.places.filter fun at' => p.pushKey at' = key).flatMap (p.pushesOf m)

end Planner

variable {at' key : Nat × Nat} {i : Nat} {e : BufferInfo}

section Regather
variable {p : Planner} {m : BufferInfos}

theorem mem_places : at' ∈ p.places ↔ at'.1 < p.nclusters ∧ at'.2 < (p.ranks at'.1).length := by
  simp only [Planner.places, mem_flatMap, mem_range, mem_map]
  constructor
  · rintro ⟨i, hi, j, hj, rfl⟩
    exact ⟨hi, hj⟩
  · rintro ⟨hi, hj⟩
    exact ⟨at'.1, hi, at'.2, hj, rfl⟩

theorem places_nodup (p : Planner) : p.places.Nodup := by
  unfold Planner.places
  rw [nodup_flatMap]
  refine ⟨fun i _ => nodup_range.map fun _ _ h => (Prod.mk.inj h).2, ?_⟩
  refine List.Pairwise.imp ?_ nodup_range
  intro i j hne
  simp only [onFun, disjoint_left, mem_map]
  rintro _ ⟨r, -, rfl⟩ ⟨r', -, h⟩
  exact hne (Prod.mk.inj h).1.symm

theorem ownKey_inj {a b : Nat × Nat} (ha : a ∈ p.places) (hb : b ∈ p.places) (h : p.ownKey a = p.ownKey b) : a = b := by
  obtain ⟨i, j⟩ := a
  obtain ⟨i', j'⟩ := b
  obtain ⟨h1, h2⟩ := Prod.mk.inj h
  obtain rfl : i = i' := h1
  have hj : j < (p.ranks i).length := (mem_places.1 ha).2
  have hj' : j' < (p.ranks i).length := (mem_places.1 hb).2
  simp only [getD_of_lt hj, getD_of_lt hj'] at h2
  rw [(List.Nodup.getElem_inj_iff (p.comm.nodup i)).1 h2]

theorem ownKey_isInterRank (h : at' ∈ p.places) : p.isInterRank (p.ownKey at') := getD_mem (mem_places.1 h).2

theorem exists_ownKey (h : p.isInterRank key) : ∃ at' ∈ p.places, p.ownKey at' = key := by
  obtain ⟨j, hj, hr⟩ := mem_iff_getElem.1 (show key.2 ∈ p.ranks key.1 from h)
  refine ⟨(key.1, j), mem_places.2 ⟨lt_nclusters h, hj⟩, ?_⟩
  simp only [Planner.ownKey, getD_of_lt hj, hr]

theorem foldl_pushBack (pushes : List BufferInfo) (key : Nat × Nat) (m : BufferInfos) :
    pushes.foldl (fun m e => pushBackBufferInfo m key e) m = update m key (m key ++ pushes) := by
  induction pushes generalizing m with
  | nil => simp
  | cons e pushes ih =>
    rw [foldl_cons, ih, pushBackBufferInfo, update_idem, update_self, append_assoc,
      singleton_append]

theorem mem_regathered {f : BufferInfo} (h : f ∈ p.regathered i e) :
    ∃ c < p.nclusters, c ≠ i ∧ f = Planner.sendInfo e.offset e.count c false := by
  simp only [Planner.regathered, mem_map, mem_filter, mem_range, decide_eq_true_eq] at h
  obtain ⟨c, ⟨hc, hne⟩, rfl⟩ := h
  exact ⟨c, hc, hne, rfl⟩

theorem mem_arrivals {f : BufferInfo} (h : f ∈ p.arrivals m key) :
    ∃ at' ∈ p.places, p.pushKey at' = key ∧ ∃ e ∈ heldOf (m (p.ownKey at')), ∃ c < p.nclusters, c ≠ key.1 ∧
      f = Planner.sendInfo e.offset e.count c false := by
  simp only [Planner.arrivals, Planner.pushesOf, mem_flatMap, mem_filter, decide_eq_true_eq] at h
  obtain ⟨at', ⟨hat, hkey⟩, e, he, hf⟩ := h
  obtain ⟨c, hc, hne, rfl⟩ := mem_regathered hf
  exact ⟨at', hat, hkey, e, he, c, hc, hkey ▸ hne, rfl⟩

/-- The lists after the places in `l` have been handled. -/
def handled (p : Planner) (m : BufferInfos) (l : List (Nat × Nat)) : BufferInfos := fun key =>
  (if key ∈ l.map p.ownKey then (m key).filter fun e => !e.isScheduled else m key) ++
    (l.filter fun at' => p.pushKey at' = key).flatMap (p.pushesOf m)

theorem regatherStep_handled {l : List (Nat × Nat)} (hl : ∀ x ∈ l, x ∈ p.places)
    (hat : at' ∈ p.places) (hnew : at' ∉ l) : p.regatherStep (handled p m l) at' = handled p m (l ++ [at']) := by
  have hown : p.ownKey at' ∉ l.map p.ownKey := by
    intro h
    obtain ⟨x, hx, he⟩ := mem_map.1 h
    exact hnew (ownKey_inj (hl x hx) hat he ▸ hx)
  -- what was pushed before is not scheduled, so it is not handled again
  have hpushed : ∀ e ∈ (l.filter fun x => p.pushKey x = p.ownKey at').flatMap (p.pushesOf m), e.isScheduled = false := by
    intro e he
    simp only [Planner.pushesOf, mem_flatMap] at he
    obtain ⟨_, -, _, -, he⟩ := he
    obtain ⟨_, -, -, rfl⟩ := mem_regathered he
    rfl
  have hheld : heldOf (handled p m l (p.ownKey at')) = heldOf (m (p.ownKey at')) := by
    have hnil : heldOf ((l.filter fun x => p.pushKey x = p.ownKey at').flatMap (p.pushesOf m)) = [] :=
      filter_eq_nil_iff.2 fun e he => by simp [hpushed e he]
    rw [handled, if_neg hown, heldOf, filter_append]
    exact (congrArg _ hnil).trans (append_nil _)
  have hkept : (handled p m l (p.ownKey at')).filter (fun e => !e.isScheduled) =
      ((m (p.ownKey at')).filter fun e => !e.isScheduled) ++
        (l.filter fun x => p.pushKey x = p.ownKey at').flatMap (p.pushesOf m) := by
    have hall : ((l.filter fun x => p.pushKey x = p.ownKey at').flatMap (p.pushesOf m)).filter (fun e => !e.isScheduled) =
        (l.filter fun x => p.pushKey x = p.ownKey at').flatMap (p.pushesOf m) :=
      filter_eq_self.2 fun e he => by simp [hpushed e he]
    rw [handled, if_neg hown, filter_append]
    exact congrArg _ hall
  have hstep : p.regatherStep (handled p m l) at' =
      update (update (handled p m l) (p.ownKey at')
        ((handled p m l (p.ownKey at')).filter fun e => !e.isScheduled)) (p.pushKey at')
        (update (handled p m l) (p.ownKey at')
          ((handled p m l (p.ownKey at')).filter fun e => !e.isScheduled) (p.pushKey at') ++
          (heldOf (handled p m l (p.ownKey at'))).flatMap (p.regathered at'.1)) := foldl_pushBack _ _ _
  rw [hstep, hheld, hkept]
  funext key
  have hright : handled p m (l ++ [at']) key =
      (if key ∈ l.map p.ownKey ∨ key = p.ownKey at' then (m key).filter fun e => !e.isScheduled else m key) ++
        ((l.filter fun x => p.pushKey x = key).flatMap (p.pushesOf m) ++
          if p.pushKey at' = key then p.pushesOf m at' else []) := by
    have hin : key ∈ (l ++ [at']).map p.ownKey ↔ key ∈ l.map p.ownKey ∨ key = p.ownKey at' := by
      rw [map_append, mem_append, map_singleton, mem_singleton]
    rw [handled, if_congr hin rfl rfl, filter_append, flatMap_append]
    by_cases hpush : p.pushKey at' = key <;> simp [hpush]
  have hmid : update (handled p m l) (p.ownKey at') (((m (p.ownKey at')).filter fun e => !e.isScheduled) ++
      (l.filter fun x => p.pushKey x = p.ownKey at').flatMap (p.pushesOf m)) key =
      (if key ∈ l.map p.ownKey ∨ key = p.ownKey at' then (m key).filter fun e => !e.isScheduled else m key) ++
        (l.filter fun x => p.pushKey x = key).flatMap (p.pushesOf m) := by
    by_cases hk : key = p.ownKey at'
    · rw [hk, update_self, if_pos (.inr rfl)]
    · rw [update_of_ne hk, handled]
      simp only [hk, or_false]
  rw [hright, ← append_assoc, ← hmid]
  by_cases hpush : p.pushKey at' = key
  · subst hpush
    rw [update_self, if_pos rfl]
    rfl
  · rw [update_of_ne (Ne.symm hpush), if_neg hpush, append_nil]

/-- **The lists after the re-queueing**: what waits stays, and the kept ranges arrive at the list with their inter-rank's
number. -/
theorem regather_apply (key : Nat × Nat) :
    p.regather m key = (if p.isInterRank key then (m key).filter fun e => !e.isScheduled else m key) ++
      p.arrivals m key := by
  have hfold : ∀ l l', l ++ l' = p.places → l'.foldl p.regatherStep (handled p m l) = handled p m p.places := by
    intro l l'
    induction l' generalizing l with
    | nil =>
      intro h
      rw [← h, append_nil]
      rfl
    | cons at' l' ih =>
      intro h
      have hnd := places_nodup p
      rw [← h, nodup_append] at hnd
      have hmem : ∀ x ∈ l ++ at' :: l', x ∈ p.places := fun x hx => h ▸ hx
      rw [foldl_cons, regatherStep_handled (fun x hx => hmem x (mem_append_left _ hx))
        (hmem at' (mem_append_right _ mem_cons_self))
        (fun hin => hnd.2.2 at' hin at' mem_cons_self rfl)]
      exact ih (l ++ [at']) (by rw [append_assoc, singleton_append, h])
  have hstart : handled p m [] = m := by
    funext key
    simp [handled]
  have hall : p.regather m = handled p m p.places := by
    rw [← hfold [] p.places rfl, hstart]
    rfl
  have hin : key ∈ p.places.map p.ownKey ↔ p.isInterRank key := by
    constructor
    · intro h
      obtain ⟨at', hat, rfl⟩ := mem_map.1 h
      exact ownKey_isInterRank hat
    · intro h
      obtain ⟨at', hat, rfl⟩ := exists_ownKey h
      exact mem_map_of_mem hat
  rw [hall, handled, if_congr hin rfl rfl]
  rfl

end Regather

/-! ## The lists of the second search -/

section Second
variable {p : Planner} {m m' : BufferInfos} {searchMethod loopId : Nat}

@[simp] theorem heldOf_append (l l' : List BufferInfo) : heldOf (l ++ l') = heldOf l ++ heldOf l' := filter_append ..

theorem heldOf_cons (e : BufferInfo) (l : List BufferInfo) : heldOf (e :: l) = heldOf [e] ++ heldOf l := by
  rw [← heldOf_append, singleton_append]

theorem heldOf_waiting (h : e.isScheduled = false) : heldOf [e] = [] := by simp [heldOf, h]

theorem heldOf_peer {b : Nat} (h : e.peerRank = some b) : heldOf [e] = [] := by simp [heldOf, h]

theorem Visited.heldOf {job : Job} {s s' : SearchState} {k k' : Nat} (hv : Visited p loopId job s k s' k')
    (key : Nat × Nat) : heldOf (s'.infos key) = heldOf (s.infos key) := by
  cases hv with
  | skip hk => rfl
  | @place b offset count _ it pre post l hk hlist hw hb hfits hrep hcut =>
    rw [place_infos]
    split_ifs with h1 h2
    · rw [h1, hlist, heldOf_append, heldOf_cons it, heldOf_waiting hw.1]
      cases hrep with
      | whole ho hc => rw [heldOf_append, heldOf_cons, heldOf_peer rfl]
      | piece mode hpos hlt ho =>
        rw [heldOf_append, heldOf_append, heldOf_cons, heldOf_peer rfl, heldOf_waiting rfl]
        simp
    · rw [heldOf_append, heldOf_peer rfl, append_nil]
    · rfl

theorem heldOf_search (key : Nat × Nat) :
    heldOf ((searchHeteroSendRecvOps p searchMethod loopId ⟨m, []⟩).infos key) = heldOf (m key) := by
  refine search_induct (P := fun s => heldOf (s.infos key) = heldOf (m key)) ?_ rfl
  intro job s k s' k' _ hs hv
  rw [hv.heldOf, hs]

theorem heldOf_refresh2 (key : Nat × Nat) : heldOf (p.refresh2 m key) = heldOf (m key) := by
  unfold Planner.refresh2 heldOf
  split_ifs
  · rw [filter_filter]
    congr 1
    funext e
    cases e.peerRank.isNone <;> simp
  · rfl

theorem arrivals_congr (h : ∀ key, heldOf (m' key) = heldOf (m key)) (key : Nat × Nat) :
    p.arrivals m' key = p.arrivals m key := by
  unfold Planner.arrivals Planner.pushesOf
  simp only [h]

theorem secondLists_apply (hkey : p.isInterRank key) : p.secondLists m loopId key =
      ((p.firstRound m loopId key).filter fun e => !e.isScheduled && e.peerRank.isNone) ++ p.arrivals m key := by
  have hheld : ∀ key, heldOf (p.refresh2 (p.firstRound m loopId) key) = heldOf (m key) := fun key =>
    (heldOf_refresh2 key).trans (heldOf_search key)
  rw [Planner.secondLists, regather_apply, if_pos hkey, arrivals_congr hheld, Planner.refresh2, if_pos hkey,
    filter_filter]

theorem mem_secondLists (he : e ∈ p.secondLists m loopId key) : e ∈ p.firstRound m loopId key ∨ e ∈ p.arrivals m key := by
  have hheld : ∀ key, heldOf (p.refresh2 (p.firstRound m loopId) key) = heldOf (m key) := fun key =>
    (heldOf_refresh2 key).trans (heldOf_search key)
  rw [Planner.secondLists, regather_apply, arrivals_congr hheld] at he
  rcases mem_append.1 he with he | he
  · have hmem : e ∈ p.refresh2 (p.firstRound m loopId) key := by
      split_ifs at he
      · exact (mem_filter.1 he).1
      · exact he
    unfold Planner.refresh2 at hmem
    split_ifs at hmem
    · exact .inl (mem_filter.1 hmem).1
    · exact .inl hmem
  · exact .inr he

theorem secondLists_waiting (hkey : p.isInterRank key) : ∀ e ∈ p.secondLists m loopId key, e.isScheduled = false := by
  intro e he
  rw [secondLists_apply hkey] at he
  rcases mem_append.1 he with he | he
  · have := (mem_filter.1 he).2
    simp only [Bool.and_eq_true, Bool.not_eq_true'] at this
    exact this.1
  · obtain ⟨_, -, -, _, -, _, -, -, rfl⟩ := mem_arrivals he
    rfl

end Second

/-! ## Ranges of both phases -/

/-- The element lies in the share of inter-rank number `j` of cluster `i` in the block of cluster `w`. -/
def Planner.InShare (p : Planner) (i w j x : Nat) : Prop := p.shareOffset i w j ≤ x ∧ x < p.shareOffset i w (j + 1)

/-- The element `x` may be sent to cluster `w` by rank `r` of cluster `i`: in the first phase a rank sends its share of
the block of `w`; in the second one it sends what its number in the cluster stands for. -/
def Planner.Sends (p : Planner) (i r w x : Nat) : Prop :=
  (w ≠ i ∧ ∃ j < (p.ranks i).length, r = (p.ranks i).getD j 0 ∧ p.InShare i w j x) ∨
    ∃ j < (p.ranks i).length, r = j + p.clusterOffset i ∧ p.InShare i i j x

/-- The planner of an accepted pipelined all-reduce. -/
structure Planner.TwoPhases (p : Planner) : Prop where
  accepted : p.accepted
  twoPhase : p.twoPhase = true
  multiNic : p.multiNic = true
  two_le : ∀ z < p.nclusters, 2 ≤ (p.ranks z).length

/-- The ranges of a loop of the pipelined all-reduce. -/
structure Sourced (p : Planner) (m : BufferInfos) : Prop where
  ready : Ready p m
  sends : ∀ i r w x, r ∈ p.ranks i → w ≠ i → covered w x (m (i, r)) ≠ 0 → p.Sends i r w x
  held : ∀ at' ∈ p.places, ∀ e ∈ heldOf (m (p.ownKey at')), ∀ x, e.Contains x → p.InShare at'.1 at'.1 at'.2 x

/-- After the first loop nothing is kept for the own cluster any more. -/
structure Mixed (p : Planner) (m : BufferInfos) : Prop where
  ready : Ready p m
  sends : ∀ i r w x, r ∈ p.ranks i → covered w x (m (i, r)) ≠ 0 → w ≠ i ∧ p.Sends i r w x
  held : ∀ key, p.isInterRank key → heldOf (m key) = []

variable {w x : Nat}

section Mixed
variable {p : Planner} {m : BufferInfos} {searchMethod loopId : Nat}

theorem Planner.InShare.unique {w' j j' : Nat} (h : p.InShare i w j x) (h' : p.InShare i w' j' x) : w = w' ∧ j = j' := by
  have hw : w = w' := by
    have h1 := shareOffset_ge p i w j
    have h2 := shareOffset_le p i w (j + 1)
    have h3 := shareOffset_ge p i w' j'
    have h4 := shareOffset_le p i w' (j' + 1)
    obtain ⟨h5, h6⟩ := h
    obtain ⟨h7, h8⟩ := h'
    exact interval_unique p.blockOffset (x := x) (blockOffset_mono p) (by omega) (by omega) (by omega) (by omega)
  subst hw
  exact ⟨rfl, interval_unique _ (shareOffset_mono p i w) h.1 h.2 h'.1 h'.2⟩

theorem Mixed.sourced (h : Mixed p m) : Sourced p m where
  ready := h.ready
  sends i r w x hr _ hx := (h.sends i r w x hr hx).2
  held at' hat e he := by
    rw [h.held _ (ownKey_isInterRank hat)] at he
    exact absurd he not_mem_nil

theorem holders_of_sends (h : ∀ i r w x, r ∈ p.ranks i → covered w x (m (i, r)) ≠ 0 → w ≠ i ∧ p.Sends i r w x)
    (z x : Nat) : holders p m z x ≤ 1 := by
  refine countP_le_one (p.comm.nodup z) fun b hb b' hb' hx hx' => ?_
  obtain ⟨w, hw⟩ := holds_iff.1 hx
  obtain ⟨w', hw'⟩ := holds_iff.1 hx'
  -- the block of the element decides the phase
  rcases (h z b w x hb hw).2 with ⟨hwz, j, -, rfl, hj⟩ | ⟨j, -, rfl, hj⟩ <;>
    rcases (h z b' w' x hb' hw').2 with ⟨hwz', j', -, rfl, hj'⟩ | ⟨j', -, rfl, hj'⟩
  · rw [(hj.unique hj').2]
  · exact absurd (hj.unique hj').1 hwz
  · exact absurd (hj.unique hj').1.symm hwz'
  · rw [(hj.unique hj').2]

theorem mixed_secondLists (loopId : Nat) (hp : p.TwoPhases) (h : Sourced p m) : Mixed p (p.secondLists m loopId) := by
  have hdirected : Directed p (p.secondLists m loopId) := by
    intro key e he
    rcases mem_secondLists he with he | he
    · exact h.ready.directed.search key e he
    · obtain ⟨_, -, -, _, -, c, hc, hne, rfl⟩ := mem_arrivals he
      exact ⟨fun hr => absurd hr (by simp [Planner.sendInfo]), fun _ => ⟨hne, hc⟩⟩
  have hpositive : Positive (p.secondLists m loopId) := by
    intro key e he
    rcases mem_secondLists he with he | he
    · exact h.ready.positive.search key e he
    · obtain ⟨_, -, -, e', he', _, -, -, rfl⟩ := mem_arrivals he
      exact h.ready.positive _ e' (mem_filter.1 he').1
  have hsends : ∀ i r w x, r ∈ p.ranks i → covered w x (p.secondLists m loopId (i, r)) ≠ 0 → w ≠ i ∧ p.Sends i r w x := by
    intro i r w x hr hx
    rw [secondLists_apply (show p.isInterRank (i, r) from hr)] at hx
    obtain ⟨e, he, hsend, rfl, hex⟩ := exists_of_covered hx
    rcases mem_append.1 he with he | he
    · obtain ⟨hmem, hs⟩ := mem_filter.1 he
      simp only [Bool.and_eq_true, Bool.not_eq_true'] at hs
      have hne : e.clusterIdToSend ≠ i := ((h.ready.directed.search (i, r) e hmem).2 hs.1).1
      refine ⟨hne, h.sends i r _ x hr hne ?_⟩
      rw [← covered_search p 1 loopId]
      refine Nat.pos_iff_ne_zero.1 (countP_pos_iff.2 ⟨e, hmem, ?_⟩)
      simp [hsend, hex]
    · obtain ⟨⟨i', j⟩, hat, hkey, e', he', c, hc, hne, rfl⟩ := mem_arrivals he
      obtain ⟨rfl, rfl⟩ := Prod.mk.inj hkey
      exact ⟨hne, .inr ⟨j, (mem_places.1 hat).2, rfl, h.held _ hat e' he' x hex⟩⟩
  refine ⟨⟨(h.ready.noRecv.refresh2 1 loopId).regather, hpositive, hdirected, ?_⟩, hsends, ?_⟩
  · intro j z a x hne ha hx
    have hz : z < p.nclusters := by
      obtain ⟨e, he, -, rfl, -⟩ := exists_of_covered hx
      exact ((hdirected (j, a) e he).2 (secondLists_waiting (show p.isInterRank (j, a) from ha) e he)).2
    have := holders_of_sends hsends z x
    have := hp.two_le z hz
    omega
  · intro key hkey
    rw [heldOf, filter_eq_nil_iff]
    intro e he
    simp [secondLists_waiting hkey e he]

theorem Mixed.round (h : Mixed p m) :
    Mixed p (p.refresh0 (searchHeteroSendRecvOps p searchMethod loopId ⟨m, []⟩).infos) := by
  refine ⟨h.ready.round, ?_, ?_⟩
  · intro i r w x hr hx
    rw [covered_refresh0, covered_search] at hx
    exact h.sends i r w x hr hx
  · intro key hkey
    have hnil : heldOf ((searchHeteroSendRecvOps p searchMethod loopId ⟨m, []⟩).infos key) = [] :=
      (heldOf_search key).trans (h.held key hkey)
    rw [heldOf, filter_eq_nil_iff] at hnil ⊢
    exact fun e he => hnil e (mem_refresh0 he)

end Mixed

/-! ## The first loop -/

variable {z : Nat}

section First
variable {p : Planner} {m : BufferInfos}

theorem Planner.TwoPhases.pipelined (hp : p.TwoPhases) : p.pipelined = true := by
  have h := hp.twoPhase
  unfold Planner.twoPhase at h
  unfold Planner.pipelined
  rw [Bool.and_eq_true] at h ⊢
  exact ⟨by rw [h.1, Bool.or_true], h.2⟩

theorem Planner.TwoPhases.nClusterInterRanks (hp : p.TwoPhases) (i : Nat) :
    p.nClusterInterRanks i = (p.ranks i).length := if_pos hp.multiNic

theorem Planner.TwoPhases.isScheduled (hp : p.TwoPhases) (i : Nat) : p.isScheduled i = false := by
  have h := hp.twoPhase
  unfold Planner.twoPhase at h
  rw [Bool.and_eq_true, beq_iff_eq] at h
  simp [Planner.isScheduled, h.1]

theorem filter_tagged (K key : Nat × Nat) (l : List BufferInfo) :
    ((l.map fun e => (K, e)).filter fun push => push.1 = key).map Prod.snd = if K = key then l else [] := by
  rw [filter_map, map_map]
  by_cases hk : K = key
  · rw [if_pos hk, filter_eq_self.2 fun e _ => by simp [hk]]
    exact map_id' l
  · rw [if_neg hk, filter_eq_nil_iff.2 fun e _ => by simp [hk]]
    rfl

theorem refresh1_list (hp : p.TwoPhases) (h : p.refresh1 = some m) (hat : at' ∈ p.places) :
    m (p.ownKey at') = (range p.nclusters).flatMap fun z => p.pipelineInfos at'.1 at'.2 z := by
  obtain ⟨i, j⟩ := at'
  obtain ⟨hi, hj⟩ := mem_places.1 hat
  unfold Planner.refresh1 at h
  rw [if_pos hp.accepted] at h
  obtain rfl := Option.some.inj h
  have hcell : ∀ i' j', (((range p.nclusters).flatMap fun z => (p.pipelineInfos i' j' z).map fun e =>
      (p.ownKey (i', j'), e)).filter fun push => push.1 = p.ownKey (i, j)).map Prod.snd =
      if p.ownKey (i', j') = p.ownKey (i, j) then (range p.nclusters).flatMap fun z => p.pipelineInfos i' j' z
      else [] := by
    intro i' j'
    rw [filter_flatMap, map_flatMap]
    simp only [filter_tagged]
    split_ifs
    · rfl
    · exact flatMap_eq_nil_iff.2 fun _ _ => rfl
  simp only [Planner.initialPushes, hp.pipelined, if_true, hp.nClusterInterRanks]
  rw [filter_flatMap, map_flatMap, flatMap_single (x := i) (mem_range.2 hi) nodup_range]
  · rw [filter_flatMap, map_flatMap, flatMap_single (x := j) (mem_range.2 hj) nodup_range]
    · exact (hcell i j).trans (if_pos rfl)
    · intro j' hj' hne
      have hat' : (i, j') ∈ p.places := mem_places.2 ⟨hi, mem_range.1 hj'⟩
      exact (hcell i j').trans (if_neg fun he => hne (Prod.mk.inj (ownKey_inj hat' hat he)).2)
  · intro i' hi' hne
    rw [filter_flatMap, map_flatMap, flatMap_eq_nil_iff]
    intro j' _
    exact (hcell i' j').trans (if_neg fun he => hne (Prod.mk.inj he).1)

theorem pipelineInfos_fresh (hp : p.TwoPhases) {j : Nat} (hat : (i, j) ∈ p.places) (hz : z < p.nclusters) (he : e ∈ p.pipelineInfos i j z) :
    Fresh e z (i == z) ∧ ∀ x, e.Contains x → p.InShare i z j x := by
  have hj : j < p.nClusterInterRanks i := by
    rw [hp.nClusterInterRanks]
    exact (mem_places.1 hat).2
  obtain ⟨hf, h1, h2⟩ := pipeline_range hp.accepted hp.pipelined hz hj he
  rw [hp.isScheduled, Bool.false_or] at hf
  refine ⟨hf, fun x hx => ⟨?_, ?_⟩⟩
  · exact h1.trans hx.1
  · exact lt_of_lt_of_le hx.2 h2

theorem heldOf_refresh1 (hp : p.TwoPhases) (h : p.refresh1 = some m) (hat : at' ∈ p.places) :
    heldOf (m (p.ownKey at')) = p.pipelineInfos at'.1 at'.2 at'.1 := by
  obtain ⟨i, j⟩ := at'
  have hi := (mem_places.1 hat).1
  rw [refresh1_list hp h hat, heldOf, filter_flatMap, flatMap_single (x := i) (mem_range.2 hi) nodup_range]
  · refine filter_eq_self.2 fun e he => ?_
    obtain ⟨hf, -⟩ := pipelineInfos_fresh hp hat hi he
    simp [hf.scheduled, hf.peer]
  · intro z hz hne
    refine filter_eq_nil_iff.2 fun e he => ?_
    obtain ⟨hf, -⟩ := pipelineInfos_fresh hp hat (mem_range.1 hz) he
    simp [hf.scheduled, hne.symm]

theorem sourced_refresh1 (hp : p.TwoPhases) (hready : Ready p m) (h : p.refresh1 = some m) : Sourced p m where
  ready := hready
  sends i r w x hr hne hx := by
    obtain ⟨at', hat, hkey⟩ := exists_ownKey (show p.isInterRank (i, r) from hr)
    obtain ⟨e, he, -, hdst, hex⟩ := exists_of_covered hx
    rw [← hkey, refresh1_list hp h hat] at he
    obtain ⟨z, hz, he⟩ := mem_flatMap.1 he
    obtain ⟨hf, hin⟩ := pipelineInfos_fresh hp hat (mem_range.1 hz) he
    obtain ⟨rfl, rfl⟩ := Prod.mk.inj hkey
    rw [← hdst, hf.dst]
    rw [← hdst, hf.dst] at hne
    exact .inl ⟨hne, at'.2, (mem_places.1 hat).2, rfl, hin x hex⟩
  held at' hat e he x hx := by
    rw [heldOf_refresh1 hp h hat] at he
    exact (pipelineInfos_fresh hp hat (mem_places.1 hat).1 he).2 x hx

theorem count_pipelineInfos (p : Planner) (i j z x : Nat) :
    (p.pipelineInfos i j z).countP (fun e => decide (e.Contains x)) ≤
      1 + if j = p.nClusterInterRanks i - 1 ∧ 0 < p.blockCount z % p.nClusterInterRanks i then 1 else 0 := by
  unfold Planner.pipelineInfos
  rw [countP_append]
  refine Nat.add_le_add ?_ ?_
  · rw [countP_map]
    refine countP_le_one nodup_range fun a _ b _ ha hb => ?_
    have ha := of_decide_eq_true ha
    have hb := of_decide_eq_true hb
    simp only [BufferInfo.Contains, Planner.sendInfo] at ha hb
    generalize p.totalCount / p.comm.nranks * p.comm.clusterSizes z / p.lcm = c at ha hb
    refine interval_unique _ (x := x) (fun hle => Nat.add_le_add_left (Nat.mul_le_mul_left c hle) _) ha.1 ?_ hb.1 ?_
    · rw [Nat.mul_succ]
      omega
    · rw [Nat.mul_succ]
      omega
  · change countP _ (if j = p.nClusterInterRanks i - 1 ∧ 0 < p.blockCount z % p.nClusterInterRanks i then _ else _) ≤ _
    split_ifs
    · exact countP_le_length
    · exact le_rfl

end First

/-! ## What the second search has to place -/

section Pending
variable {p : Planner} {m : BufferInfos} {loopId : Nat}

theorem pushKey_inj {a b : Nat × Nat} (h : p.pushKey a = p.pushKey b) : a = b := by
  obtain ⟨i, j⟩ := a
  obtain ⟨i', j'⟩ := b
  obtain ⟨h1, h2⟩ := Prod.mk.inj h
  obtain rfl : i = i' := h1
  have hj : j = j' := Nat.add_right_cancel h2
  rw [hj]

theorem arrivals_pushKey (hat : at' ∈ p.places) : p.arrivals m (p.pushKey at') = p.pushesOf m at' := by
  have hone : (p.places.filter fun x => p.pushKey x = p.pushKey at') = [at'] := by
    refine perm_singleton.1 ?_
    rw [perm_ext_iff_of_nodup ((places_nodup p).filter _) (nodup_singleton _)]
    intro x
    simp only [mem_filter, decide_eq_true_eq, mem_singleton]
    constructor
    · exact fun h => pushKey_inj h.2
    · rintro rfl
      exact ⟨hat, rfl⟩
  rw [Planner.arrivals, hone, flatMap_singleton]

theorem pendingAt_flatMap (z x : Nat) (f : BufferInfo → List BufferInfo) (l : List BufferInfo) :
    pendingAt z x (l.flatMap f) = (l.map fun e => pendingAt z x (f e)).sum := by
  induction l with
  | nil => rfl
  | cons e l ih => rw [flatMap_cons, pendingAt_append, ih, map_cons, sum_cons]

theorem pendingAt_regathered (hz : z < p.nclusters) (hne : z ≠ i) (e : BufferInfo) :
    pendingAt z x (p.regathered i e) = if e.Contains x then 1 else 0 := by
  have hsends : unplaced z (p.regathered i e) = [Planner.sendInfo e.offset e.count z false] := by
    refine perm_singleton.1 ?_
    have hnd : (p.regathered i e).Nodup := by
      refine List.Nodup.map ?_ (nodup_range.filter _)
      intro c c' h
      exact congrArg BufferInfo.clusterIdToSend h
    unfold unplaced
    rw [perm_ext_iff_of_nodup (hnd.filter _) (nodup_singleton _)]
    intro f
    simp only [mem_filter, mem_singleton, Bool.and_eq_true, Bool.not_eq_true', beq_iff_eq]
    constructor
    · rintro ⟨hf, -, rfl⟩
      obtain ⟨c, -, -, rfl⟩ := mem_regathered hf
      rfl
    · rintro rfl
      refine ⟨?_, ⟨rfl, rfl⟩, rfl⟩
      exact mem_map.2 ⟨z, mem_filter.2 ⟨mem_range.2 hz, by simpa using hne⟩, rfl⟩
  rw [pendingAt, hsends, countP_singleton]
  exact if_congr decide_eq_true_iff rfl rfl

theorem pendingAt_pushesOf (m : BufferInfos) (hz : z < p.nclusters) (hne : z ≠ at'.1) :
    pendingAt z x (p.pushesOf m at') = (heldOf (m (p.ownKey at'))).countP fun e => decide (e.Contains x) := by
  rw [Planner.pushesOf, pendingAt_flatMap]
  induction heldOf (m (p.ownKey at')) with
  | nil => rfl
  | cons e l ih =>
    rw [map_cons, sum_cons, ih, pendingAt_regathered hz hne, countP_cons]
    simp only [decide_eq_true_eq]
    exact Nat.add_comm _ _

theorem sum_le_of_unique {α : Type} {l : List α} (hl : l.Nodup) {f : α → Nat} {n : Nat}
    (huniq : ∀ a ∈ l, ∀ b ∈ l, f a ≠ 0 → f b ≠ 0 → a = b) (hle : ∀ a ∈ l, f a ≤ n) : (l.map f).sum ≤ n := by
  induction l with
  | nil => exact Nat.zero_le _
  | cons a l ih =>
    rw [map_cons, sum_cons]
    by_cases ha : f a = 0
    · rw [ha, Nat.zero_add]
      exact ih (nodup_cons.1 hl).2 (fun b hb c hc => huniq b (mem_cons_of_mem _ hb) c (mem_cons_of_mem _ hc))
        fun b hb => hle b (mem_cons_of_mem _ hb)
    · have hrest : (l.map f).sum = 0 := by
        rw [List.sum_eq_zero_iff_forall_eq_nat]
        intro v hv
        obtain ⟨b, hb, rfl⟩ := mem_map.1 hv
        by_contra hfb
        have he := huniq a mem_cons_self b (mem_cons_of_mem _ hb) ha hfb
        exact (nodup_cons.1 hl).1 (he ▸ hb)
      rw [hrest]
      exact hle a mem_cons_self

def Planner.InBlock (p : Planner) (w x : Nat) : Prop := p.blockOffset w ≤ x ∧ x < p.blockOffset (w + 1)

theorem Planner.InShare.inBlock {j : Nat} (h : p.InShare i w j x) : p.InBlock w x :=
  ⟨(shareOffset_ge p i w j).trans h.1, lt_of_lt_of_le h.2 (shareOffset_le p i w (j + 1))⟩

theorem Planner.InBlock.unique {w' : Nat} (h : p.InBlock w x) (h' : p.InBlock w' x) : w = w' :=
  interval_unique _ (blockOffset_mono p) h.1 h.2 h'.1 h'.2

/-- The block of `w` has a remainder that its inter-ranks do not share. -/
def Planner.Remainder (p : Planner) (w : Nat) : Prop := 0 < p.blockCount w % (p.ranks w).length

instance (p : Planner) (w : Nat) : Decidable (p.Remainder w) := inferInstanceAs (Decidable (_ < _))

theorem pending_secondLists (loopId : Nat) (hp : p.TwoPhases) (hready : Ready p m) (h : p.refresh1 = some m)
    (hx : p.InBlock w x) (hne : w ≠ z) (hz : z < p.nclusters) :
    pending p (p.secondLists m loopId) z x ≤ 1 + if p.Remainder w then 1 else 0 := by
  have hsourced := sourced_refresh1 hp hready h
  have harrive : ∀ key ∈ p.keys, pendingAt z x (p.secondLists m loopId key) = pendingAt z x (p.arrivals m key) := by
    intro key hkey
    have hkey := mem_keys.1 hkey
    rw [secondLists_apply hkey, pendingAt_append, Nat.add_eq_right]
    refine countP_eq_zero.2 fun e he hex => ?_
    obtain ⟨hmem, hw⟩ := mem_unplaced.1 he
    have hmem := (mem_filter.1 hmem).1
    have hcov : covered z x (m (key.1, key.2)) ≠ 0 := by
      rw [← covered_search p 1 loopId]
      refine Nat.pos_iff_ne_zero.1 (countP_pos_iff.2 ⟨e, hmem, ?_⟩)
      simpa [hw.2.1, show e.clusterIdToSend = z from hw.2.2] using hex
    have hat : ∃ at' ∈ p.places, p.ownKey at' = key := exists_ownKey hkey
    obtain ⟨at', hat, rfl⟩ := hat
    obtain ⟨e', he', -, hdst', hex'⟩ := exists_of_covered hcov
    rw [show (((p.ownKey at').1, (p.ownKey at').2) : Nat × Nat) = p.ownKey at' from rfl, refresh1_list hp h hat] at he'
    obtain ⟨z', hz', he'⟩ := mem_flatMap.1 he'
    obtain ⟨hf, hin⟩ := pipelineInfos_fresh hp hat (mem_range.1 hz') he'
    have : z' = z := hf.dst.symm.trans hdst'
    exact hne (hx.unique ((hin x hex').inBlock) |>.trans this)
  have hplace : ∀ key ∈ p.keys, pendingAt z x (p.arrivals m key) ≠ 0 →
      ∃ j, (w, j) ∈ p.places ∧ p.pushKey (w, j) = key ∧ p.InShare w w j x := by
    intro key _ h0
    obtain ⟨e, he, hex⟩ := countP_pos_iff.1 (Nat.pos_of_ne_zero h0)
    obtain ⟨⟨i, j⟩, hat, hkey, e', he', c, -, -, rfl⟩ := mem_arrivals (mem_filter.1 he).1
    have hshare := hsourced.held _ hat e' he' x (of_decide_eq_true hex)
    obtain rfl := hshare.inBlock.unique hx
    exact ⟨j, hat, hkey, hshare⟩
  unfold pending
  rw [map_congr_left harrive]
  refine sum_le_of_unique (keys_nodup p) (fun a ha b hb ha0 hb0 => ?_) fun key hkey => ?_
  · obtain ⟨j, -, rfl, hj⟩ := hplace a ha ha0
    obtain ⟨j', -, rfl, hj'⟩ := hplace b hb hb0
    rw [(hj.unique hj').2]
  · by_cases h0 : pendingAt z x (p.arrivals m key) = 0
    · rw [h0]
      exact Nat.zero_le _
    · obtain ⟨j, hat, rfl, -⟩ := hplace key hkey h0
      rw [arrivals_pushKey hat, pendingAt_pushesOf m hz hne.symm, heldOf_refresh1 hp h hat]
      refine (count_pipelineInfos p w j w x).trans ?_
      rw [hp.nClusterInterRanks]
      refine Nat.add_le_add_left ?_ 1
      by_cases hr : p.Remainder w
      · split_ifs <;> omega
      · rw [if_neg hr, if_neg fun hn => hr hn.2]

end Pending

end FlagCX.C2c
