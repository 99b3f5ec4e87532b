import Mathlib.Data.Nat.Find
import FlagCX.C2c.Strategy

/-!
# Room at the receivers

* `pending`, `taken`, `holders` : for one element, how many sends to a cluster still wait, how many receives that
  cluster has, and at how many of its inter-ranks a send of its own occupies the element. A round keeps
  `pending + taken` and `holders`.
* `search_clears`, `pending_search_pos` : a round places all sends that cover an element if and only if the cluster has
  an inter-rank for each of them beside the occupied ones.
-/

namespace FlagCX.C2c
open List

def Positive (m : BufferInfos) : Prop := ∀ key, ∀ e ∈ m key, 0 < e.count

/-- No range at inter-rank `b` of cluster `z` contains the element. -/
def Free (m : BufferInfos) (z b x : Nat) : Prop := ∀ e ∈ m (z, b), ¬ e.Contains x

theorem clash_iff {offset count : Nat} {info : BufferInfo} (hc : 0 < count) (hi : 0 < info.count) :
    clash offset count info ↔ info.offset < offset + count ∧ offset < info.offset + info.count := by
  unfold clash
  omega

section Split
variable {l : List BufferInfo} {offset count : Nat}

theorem exists_candidate (hc : 0 < count) (hpos : ∀ e ∈ l, 0 < e.count) (hfree : ∀ e ∈ l, ¬ e.Contains offset)
    (hno : checkIfPossibleToPush l offset count = false) : ∃ piece, Candidate l offset count piece := by
  classical
  -- the first range ahead ends the piece
  have hahead : ∃ n, ∃ e ∈ l, e.offset = n ∧ offset < n ∧ n < offset + count := by
    by_contra hnone
    have hfits : checkIfPossibleToPush l offset count = true := by
      refine checkIfPossibleToPush_iff.2 fun e he hclash => hnone ⟨e.offset, e, he, rfl, ?_⟩
      have := (clash_iff hc (hpos e he)).1 hclash
      have := hfree e he
      unfold BufferInfo.Contains at this
      omega
    rw [hfits] at hno
    exact absurd hno (by decide)
  obtain ⟨e, he, hen, h1, h2⟩ := Nat.find_spec hahead
  refine ⟨_, e, he, .inl ⟨⟨⟨by omega, by omega⟩, ?_⟩, rfl⟩⟩
  refine checkIfPossibleToPush_iff.2 fun f hf hclash => ?_
  have hclash := (clash_iff (by omega) (hpos f hf)).1 hclash
  have hfree := hfree f hf
  unfold BufferInfo.Contains at hfree
  refine Nat.find_min hahead (m := f.offset) (by omega) ⟨f, hf, rfl, by omega, by omega⟩

section

variable (acc : Nat × PushMode) (info : BufferInfo)
include acc info

theorem prefixStep_mono : acc.1 ≤ (prefixStep l offset count acc info).1 := by
  unfold prefixStep
  split_ifs
  · exact le_max_right _ _
  · exact le_rfl

theorem suffixStep_mono : acc.1 ≤ (suffixStep l offset count acc info).1 := by
  unfold suffixStep
  split_ifs
  · exact le_max_right _ _
  · exact le_rfl

theorem splitStep_mono : acc.1 ≤ (splitStep l offset count acc info).1 :=
  (prefixStep_mono acc info).trans (suffixStep_mono _ info)

end

theorem foldl_splitStep_mono (infos : List BufferInfo) (acc : Nat × PushMode) :
    acc.1 ≤ (infos.foldl (splitStep l offset count) acc).1 := by
  induction infos generalizing acc with
  | nil => exact le_rfl
  | cons info infos ih => exact (splitStep_mono acc info).trans (ih _)

theorem foldl_splitStep_pos {infos : List BufferInfo} (acc : Nat × PushMode) {info : BufferInfo} (hi : info ∈ infos)
    (ho : offersPrefix l offset count info ∨ offersSuffix l offset count info) :
    0 < (infos.foldl (splitStep l offset count) acc).1 := by
  induction infos generalizing acc with
  | nil => exact absurd hi not_mem_nil
  | cons x infos ih =>
    rcases mem_cons.1 hi with rfl | hi
    · refine lt_of_lt_of_le ?_ (foldl_splitStep_mono infos _)
      rcases ho with ho | ho
      · refine lt_of_lt_of_le ?_ (suffixStep_mono _ info)
        rw [prefixStep, if_pos ho]
        exact lt_of_lt_of_le (Nat.sub_pos_of_lt ho.1.1) (le_max_left _ _)
      · rw [splitStep, suffixStep, if_pos ho]
        have := ho.1
        refine lt_of_lt_of_le ?_ (le_max_left _ _)
        omega
    · exact ih _ hi

theorem split_of_candidate {piece : Nat × PushMode} (h : Candidate l offset count piece) :
    ∃ piece', checkIfPossibleToSplitAndPush l offset count = some piece' ∧ 0 < piece'.1 := by
  obtain ⟨info, hi, ho⟩ := h
  have hpos := foldl_splitStep_pos (0, .prePush) hi (ho.imp And.left And.left)
  refine ⟨l.foldl (splitStep l offset count) (0, .prePush), ?_, hpos⟩
  exact if_pos hpos

/-- A position of the range `[a, a + n)` is an element of an entry, or the place of an empty one. -/
def Taken (l : List BufferInfo) (a n : Nat) : Prop := ∃ e ∈ l, ∃ x, a ≤ x ∧ x < a + n ∧ (e.Contains x ∨ x = e.offset)

theorem taken_of_refused {a n : Nat} (hn : 0 < n) (h : checkIfPossibleToPush l a n = false) : Taken l a n := by
  by_contra hfree
  have hpush : checkIfPossibleToPush l a n = true := by
    refine checkIfPossibleToPush_iff.2 fun e he hclash => hfree ⟨e, he, ?_⟩
    rcases hclash with ⟨h1, h2⟩ | h1 | ⟨h1, h2⟩
    · exact ⟨e.offset, le_of_lt h1, h2, .inr rfl⟩
    · exact ⟨a, le_rfl, by omega, .inr h1⟩
    · exact ⟨a, le_rfl, by omega, .inl ⟨le_of_lt h1, h2⟩⟩
  rw [hpush] at h
  exact absurd h (by decide)

/-- **A proposed split can be placed**, and a split is refused only when no prefix up to an entry ahead is free, and no
suffix behind an entry that covers the start of the range. -/
theorem split_placeable (l : List BufferInfo) (offset count : Nat) :
    (∀ splitCount mode, checkIfPossibleToSplitAndPush l offset count = some (splitCount, mode) →
      0 < splitCount ∧ splitCount < count ∧ ∀ e ∈ l, ∀ x, mode.pieceOffset offset count splitCount ≤ x →
        x < mode.pieceOffset offset count splitCount + splitCount → ¬ e.Contains x) ∧
    (checkIfPossibleToSplitAndPush l offset count = none → ∀ e ∈ l,
      (offset < e.offset → e.offset < offset + count → Taken l offset (e.offset - offset)) ∧
      (e.offset ≤ offset → offset < e.offset + e.count → e.offset + e.count < offset + count →
        Taken l (e.offset + e.count) (offset + count - e.offset - e.count))) := by
  refine ⟨fun splitCount mode h => ?_, fun hnone e he => ?_⟩
  · have hc := checkIfPossibleToSplitAndPush_candidate h
    refine ⟨hc.pos, hc.lt, fun e he x h1 h2 hx => ?_⟩
    have hapart := disjoint_of_possibleToPush
      (e := ⟨mode.pieceOffset offset count splitCount, splitCount, 0, false, false, none, none⟩) hc.possible he
    exact hapart x ⟨⟨h1, h2⟩, hx⟩
  · have hno : ∀ piece, ¬ Candidate l offset count piece := by
      intro piece hc
      obtain ⟨piece', hsome, -⟩ := split_of_candidate hc
      rw [hnone] at hsome
      cases hsome
    refine ⟨fun h1 h2 => taken_of_refused (by omega) ?_, fun h1 h2 h3 => taken_of_refused (by omega) ?_⟩
    · exact eq_false_of_ne_true fun hpush => hno _ ⟨e, he, .inl ⟨⟨⟨h1, h2⟩, hpush⟩, rfl⟩⟩
    · exact eq_false_of_ne_true fun hpush => hno _ ⟨e, he, .inr ⟨⟨⟨h1, h2, h3⟩, hpush⟩, rfl⟩⟩

/-- Elements 0 and 2 of the range `[0, 4)` are taken. The suffix `[3, 4)` behind the second entry is free, but that entry
does not cover the start of the range. -/
theorem split_misses_suffix :
    let l : List BufferInfo := [⟨0, 1, 0, true, true, none, none⟩, ⟨2, 1, 0, true, true, none, none⟩]
    checkIfPossibleToPush l 0 4 = false ∧ checkIfPossibleToSplitAndPush l 0 4 = none ∧
      ∃ e ∈ l, 0 < e.offset + e.count ∧ e.offset + e.count < 0 + 4 ∧ ¬ Taken l (e.offset + e.count) 1 := by
  refine ⟨by decide, by decide, ⟨2, 1, 0, true, true, none, none⟩, by simp, by decide, by decide, ?_⟩
  rintro ⟨e, he, x, h1, h2, hx⟩
  simp only [mem_cons, not_mem_nil, or_false] at he
  rcases he with rfl | rfl <;> simp only [BufferInfo.Contains] at hx h1 h2 <;> omega

end Split

section Orders
variable {p : Planner} {searchMethod : Nat} {job : Job} {m : BufferInfos} {it : BufferInfo} {b : Nat}

theorem exists_rotation {n t : Nat} (ht : t < n) (r : Nat) : ∃ r2 < n, (r2 + r) % n = t := by
  refine ⟨(t + (n - r % n)) % n, Nat.mod_lt _ (by omega), ?_⟩
  have hr : r % n < n := Nat.mod_lt _ (by omega)
  have hsum : t + (n - r % n) + r = t + n * (r / n + 1) := by
    have := Nat.div_add_mod r n
    rw [Nat.mul_add, Nat.mul_one]
    omega
  rw [Nat.mod_add_mod, hsum, Nat.add_mul_mod_self_left, Nat.mod_eq_of_lt ht]

theorem getD_of_lt {l : List Nat} {t : Nat} (ht : t < l.length) : l.getD t 0 = l[t] := by simp [List.getD, ht]

theorem mem_directOrder (hb : b ∈ p.ranks job.dst) : b ∈ directOrder p searchMethod job := by
  obtain ⟨t, ht, rfl⟩ := mem_iff_getElem.1 hb
  simp only [directOrder, mem_map, mem_range]
  by_cases hm : searchMethod = 1
  · obtain ⟨r2, hr, he⟩ := exists_rotation ht job.r1
    refine ⟨r2, hr, ?_⟩
    rw [if_pos hm, he, getD_of_lt ht]
  · refine ⟨t, ht, ?_⟩
    rw [if_neg hm, getD_of_lt ht]

theorem mem_splitOrder (hb : b ∈ p.ranks job.dst) : b ∈ splitOrder p job := by
  obtain ⟨t, ht, rfl⟩ := mem_iff_getElem.1 hb
  obtain ⟨r2, hr, he⟩ := exists_rotation ht job.r1
  simp only [splitOrder, mem_map, mem_range]
  refine ⟨r2, hr, ?_⟩
  rw [he, getD_of_lt ht]

theorem splitPick_mono (acc : Nat × PushMode × Nat) (b : Nat) : acc.1 ≤ (splitPick job m it acc b).1 := by
  unfold splitPick
  split
  · split_ifs with h
    · exact le_of_lt h
    · exact le_rfl
  · exact le_rfl

theorem foldl_splitPick_mono (order : List Nat) (acc : Nat × PushMode × Nat) :
    acc.1 ≤ (order.foldl (splitPick job m it) acc).1 := by
  induction order generalizing acc with
  | nil => exact le_rfl
  | cons b order ih => exact (splitPick_mono acc b).trans (ih _)

theorem foldl_splitPick_pos {order : List Nat} {acc : Nat × PushMode × Nat} (hb : b ∈ order) {piece : Nat × PushMode}
    (hs : checkIfPossibleToSplitAndPush (m (job.dst, b)) it.offset it.count = some piece) (hpos : 0 < piece.1) :
    0 < (order.foldl (splitPick job m it) acc).1 := by
  induction order generalizing acc with
  | nil => exact absurd hb not_mem_nil
  | cons x order ih =>
    rcases mem_cons.1 hb with rfl | hb
    · refine lt_of_lt_of_le ?_ (foldl_splitPick_mono order _)
      simp only [splitPick, hs]
      split_ifs with h
      · exact hpos
      · omega
    · exact ih hb

end Orders

section Visit
variable {p : Planner} {searchMethod loopId : Nat} {job : Job} {s s' : SearchState} {k k' b : Nat} {it : BufferInfo}

/-- **A wanted range does not wait while its first element is free somewhere.** -/
theorem visit_ne_skip (hpos : Positive s.infos) (hit : (s.infos (job.src, job.rank p))[k]? = some it)
    (hw : wanted job it) (hb : b ∈ p.ranks job.dst) (hfree : Free s.infos job.dst b it.offset) :
    visit p searchMethod loopId job s k ≠ some (s, k + 1) := by
  intro h
  have hcount : 0 < it.count := hpos _ it (mem_of_getElem? hit)
  unfold visit at h
  simp only [hit, hw, not_true, if_false] at h
  cases hd : directTarget p searchMethod job s.infos it with
  | some b' =>
    simp only [hd, Option.some.injEq, Prod.mk.injEq, and_true] at h
    have hlen := congrArg (fun s => s.pushed.length) h
    simp [SearchState.pushRecv] at hlen
  | none =>
    simp only [hd] at h
    have hno : checkIfPossibleToPush (s.infos (job.dst, b)) it.offset it.count = false := by
      simpa using find?_eq_none.1 hd b (mem_directOrder hb)
    obtain ⟨piece, hpiece⟩ := exists_candidate hcount (hpos _) hfree hno
    obtain ⟨piece', hs, hp⟩ := split_of_candidate hpiece
    have hmax : 0 < (splitTarget p job s.infos it).1 := foldl_splitPick_pos (mem_splitOrder hb) hs hp
    simp [Nat.pos_iff_ne_zero.1 hmax] at h

theorem Positive.visited (h : Positive s.infos) (hv : Visited p loopId job s k s' k') : Positive s'.infos := by
  cases hv with
  | skip hk => exact h
  | @place b offset count _ it pre post l hk hlist hw hb hfits hrep hcut =>
    have hit : 0 < it.count := h (job.src, job.rank p) it (by simp [hlist])
    intro key e he
    rw [place_infos] at he
    split_ifs at he with h1 h2
    · cases hrep with
      | whole ho hc =>
        simp only [mem_append, mem_cons] at he
        rcases he with he | rfl | he
        · exact h (job.src, job.rank p) e (by simp [hlist, he])
        · exact hit
        · exact h (job.src, job.rank p) e (by simp [hlist, he])
      | piece mode hpos hlt ho =>
        simp only [mem_append, mem_cons, not_mem_nil, or_false] at he
        rcases he with (he | he) | rfl | rfl
        · exact h (job.src, job.rank p) e (by simp [hlist, he])
        · exact h (job.src, job.rank p) e (by simp [hlist, he])
        · exact hpos
        · exact Nat.sub_pos_of_lt hlt
    · rcases mem_append.1 he with hold | hnew
      · exact h key e hold
      · obtain rfl := mem_singleton.1 hnew
        cases hrep with
        | whole ho hc => rw [hc]; exact hit
        | piece mode hpos hlt ho => exact hpos
    · exact h key e he

theorem Visited.position (hv : Visited p loopId job s k s' k') : k' = k ∨ k' = k + 1 := by
  cases hv with
  | skip hk => exact .inr rfl
  | place hk hlist hw hb hfits hrep hcut =>
    subst hk
    cases hrep with
    | whole => exact .inr rfl
    | piece => exact .inl rfl

/-- The walk stands behind the end of its list. -/
def Ended (p : Planner) (job : Job) (s : SearchState) (k : Nat) : Prop := (s.infos (job.src, job.rank p)).length ≤ k

theorem visit_eq_none : visit p searchMethod loopId job s k = none ↔ Ended p job s k := by
  unfold visit Ended
  cases hit : (s.infos (job.src, job.rank p))[k]? with
  | none =>
    simp only [hit, true_iff]
    exact getElem?_eq_none_iff.1 hit
  | some it =>
    have hk := (List.getElem?_eq_some_iff.1 hit).1
    simp only [hit, not_le.2 hk, iff_false]
    by_cases hw : wanted job it
    · simp only [hw, not_true, if_false]
      cases directTarget p searchMethod job s.infos it with
      | some b => simp
      | none => split_ifs <;> simp
    · simp [hw]

/-- **The rule of a walk**: what holds at its start and is kept by every visit holds at its end. -/
theorem scan_rule {Q : SearchState → Nat → Prop} (hjob : job.src ≠ job.dst)
    (hstep : ∀ s k s' k', Q s k → visit p searchMethod loopId job s k = some (s', k') → Q s' k') (h0 : Q s 0) :
    ∃ k, Q (scan p searchMethod loopId job s) k ∧ Ended p job (scan p searchMethod loopId job s) k := by
  have hrun : ∀ fuel s k, ahead p job s k < fuel → Q s k → ∃ k', Q (scanFrom p searchMethod loopId job fuel s k) k' ∧
        Ended p job (scanFrom p searchMethod loopId job fuel s k) k' := by
    intro fuel
    induction fuel with
    | zero => intro s k hf _; exact absurd hf (Nat.not_lt_zero _)
    | succ fuel ih =>
      intro s k hf hq
      unfold scanFrom
      cases hv : visit p searchMethod loopId job s k with
      | none => exact ⟨k, hq, visit_eq_none.1 hv⟩
      | some next =>
        have hlt := ahead_lt (visit_visited hjob hv)
        exact ih next.1 next.2 (by omega) (hstep _ _ _ _ hq hv)
  exact hrun _ s 0 (by simp [ahead]) h0

end Visit

/-! ## Counting at one element -/

/-- A send of the list covers `x`. -/
def holds (x : Nat) (l : List BufferInfo) : Bool := l.any fun e => !e.isRecv && decide (e.Contains x)

/-- The receives of the list that cover `x`. -/
def takenAt (x : Nat) (l : List BufferInfo) : Nat := l.countP fun e => e.isRecv && decide (e.Contains x)

/-- The sends to `z` that wait in the list and cover `x`. -/
def pendingAt (z x : Nat) (l : List BufferInfo) : Nat := (unplaced z l).countP fun e => decide (e.Contains x)

def outstandingAt (l : List BufferInfo) : Nat := ((l.filter fun e => !e.isScheduled && !e.isRecv).map (·.count)).sum

/-- The inter-ranks of all clusters. -/
def Planner.keys (p : Planner) : List (Nat × Nat) :=
  (List.range p.nclusters).flatMap fun i => (p.ranks i).map fun r => (i, r)

/-- The inter-ranks of `z` at which a send of their own covers `x`. -/
def holders (p : Planner) (m : BufferInfos) (z x : Nat) : Nat := (p.ranks z).countP fun b => holds x (m (z, b))

/-- The receives of cluster `z` that cover `x`. -/
def taken (p : Planner) (m : BufferInfos) (z x : Nat) : Nat := ((p.ranks z).map fun b => takenAt x (m (z, b))).sum

/-- The sends to cluster `z` that wait and cover `x`. -/
def pending (p : Planner) (m : BufferInfos) (z x : Nat) : Nat := (p.keys.map fun key => pendingAt z x (m key)).sum

/-- All elements that wait. -/
def outstanding (p : Planner) (m : BufferInfos) : Nat := (p.keys.map fun key => outstandingAt (m key)).sum

section Keys
variable {p : Planner}

theorem mem_keys {key : Nat × Nat} : key ∈ p.keys ↔ p.isInterRank key := by
  simp only [Planner.keys, mem_flatMap, mem_range, mem_map]
  constructor
  · rintro ⟨i, -, r, hr, rfl⟩
    exact hr
  · intro h
    exact ⟨key.1, lt_nclusters h, key.2, h, rfl⟩

theorem Job.Valid.mem_keys {job : Job} (h : job.Valid p) : (job.src, job.rank p) ∈ p.keys := C2c.mem_keys.2 h.rank_mem

theorem keys_nodup (p : Planner) : p.keys.Nodup := by
  unfold Planner.keys
  rw [nodup_flatMap]
  refine ⟨fun i _ => (p.comm.nodup i).map fun _ _ h => (Prod.mk.inj h).2, ?_⟩
  refine List.Pairwise.imp ?_ nodup_range
  intro i j hne
  simp only [Function.onFun, disjoint_left, mem_map]
  rintro _ ⟨r, -, rfl⟩ ⟨r', -, h⟩
  exact hne (Prod.mk.inj h).1.symm

theorem sum_map_single {α : Type} [DecidableEq α] {l : List α} (hl : l.Nodup) {a : α} (ha : a ∈ l) {f g : α → Nat}
    {d : Nat} (h : ∀ x ∈ l, f x + (if x = a then d else 0) = g x) : (l.map f).sum + d = (l.map g).sum := by
  induction l with
  | nil => exact absurd ha not_mem_nil
  | cons x l ih =>
    simp only [map_cons, sum_cons]
    have hx := h x mem_cons_self
    rcases mem_cons.1 ha with rfl | ha'
    · have hrest : l.map f = l.map g := by
        refine map_congr_left fun y hy => ?_
        have hya : y ≠ a := fun he => (nodup_cons.1 hl).1 (he ▸ hy)
        simpa [hya] using h y (mem_cons_of_mem _ hy)
      rw [if_pos rfl] at hx
      rw [hrest]
      omega
    · have hxa : x ≠ a := fun he => (nodup_cons.1 hl).1 (he ▸ ha')
      rw [if_neg hxa] at hx
      have := ih (nodup_cons.1 hl).2 ha' fun y hy => h y (mem_cons_of_mem _ hy)
      omega

end Keys

section Lists
variable {x z : Nat} {l l' : List BufferInfo} {e : BufferInfo}

@[simp] theorem pendingAt_append : pendingAt z x (l ++ l') = pendingAt z x l + pendingAt z x l' := by
  simp [pendingAt, unplaced_append]

@[simp] theorem outstandingAt_append : outstandingAt (l ++ l') = outstandingAt l + outstandingAt l' := by
  simp [outstandingAt]

theorem pendingAt_cons : pendingAt z x (e :: l) = pendingAt z x [e] + pendingAt z x l := by
  rw [← pendingAt_append, singleton_append]

theorem outstandingAt_cons : outstandingAt (e :: l) = outstandingAt [e] + outstandingAt l := by
  rw [← outstandingAt_append, singleton_append]

theorem pendingAt_scheduled (h : e.isScheduled = true) : pendingAt z x [e] = 0 := by
  rw [pendingAt, unplaced_scheduled h]
  rfl

theorem outstandingAt_scheduled (h : e.isScheduled = true) : outstandingAt [e] = 0 := by simp [outstandingAt, h]

theorem outstandingAt_waiting (h : e.isScheduled = false) (hr : e.isRecv = false) : outstandingAt [e] = e.count := by
  simp [outstandingAt, h, hr]

theorem pendingAt_waiting (h : e.isScheduled = false) (hr : e.isRecv = false) :
    pendingAt z x [e] = if e.clusterIdToSend = z ∧ e.offset ≤ x ∧ x < e.offset + e.count then 1 else 0 := by
  by_cases hz : e.clusterIdToSend = z
  · by_cases hx : e.offset ≤ x ∧ x < e.offset + e.count <;>
      simp [pendingAt, unplaced, h, hr, hz, BufferInfo.Contains, hx]
  · simp [pendingAt, unplaced, h, hr, hz]

theorem takenAt_received (x : Nat) (l : List BufferInfo) :
    takenAt x l = (received l).countP fun e => decide (e.Contains x) := by
  rw [takenAt, received, countP_filter]
  congr 1
  funext e
  rw [Bool.and_comm]

theorem holds_iff : holds x l = true ↔ ∃ z, covered z x l ≠ 0 := by
  simp only [holds, any_eq_true, Bool.and_eq_true, Bool.not_eq_true', decide_eq_true_eq]
  constructor
  · rintro ⟨e, he, hr, hx⟩
    refine ⟨e.clusterIdToSend, Nat.pos_iff_ne_zero.1 (countP_pos_iff.2 ⟨e, he, ?_⟩)⟩
    simp [hr, hx]
  · rintro ⟨z, hz⟩
    obtain ⟨e, he, hc⟩ := countP_pos_iff.1 (Nat.pos_of_ne_zero hz)
    simp only [Bool.and_eq_true, Bool.not_eq_true', decide_eq_true_eq] at hc
    exact ⟨e, he, hc.1.1, hc.2⟩

theorem holds_congr (h : ∀ z, covered z x l = covered z x l') : holds x l = holds x l' := by
  rw [Bool.eq_iff_iff, holds_iff, holds_iff]
  simp only [h]

theorem not_contains_of (hh : holds x l = false) (ht : takenAt x l = 0) (he : e ∈ l) : ¬ e.Contains x := by
  intro hx
  cases hr : e.isRecv with
  | false =>
    have : holds x l = true := by
      simp only [holds, any_eq_true]
      exact ⟨e, he, by simp [hr, hx]⟩
    rw [hh] at this
    exact absurd this (by decide)
  | true => exact countP_eq_zero.1 ht e he (by simp [hr, hx])

end Lists

/-! ## What a round keeps -/

section Kept
variable {p : Planner} {searchMethod loopId : Nat} {job : Job} {s s' : SearchState} {k k' : Nat} {m : BufferInfos}

variable {count : Nat}

theorem PushMode.parts (mode : PushMode) (offset : Nat) {splitCount x : Nat} (h : splitCount < count) (P : Prop)
    [Decidable P] :
    (if P ∧ mode.restOffset offset splitCount ≤ x ∧ x < mode.restOffset offset splitCount + (count - splitCount) then 1
      else 0) +
      (if P ∧ mode.pieceOffset offset count splitCount ≤ x ∧ x < mode.pieceOffset offset count splitCount + splitCount
        then 1 else 0) = if P ∧ offset ≤ x ∧ x < offset + count then 1 else 0 := by
  by_cases hP : P
  · cases mode with
    | prePush | postPush =>
      simp only [hP, true_and, PushMode.pieceOffset, PushMode.restOffset]
      split_ifs <;> omega
  · simp [hP]

variable {l pre post : List BufferInfo} {it : BufferInfo}

section

variable {b offset : Nat} (h : Replaced loopId b it offset count pre post l k') (hw : it.isScheduled = false)
  (hr : it.isRecv = false)
include h hw hr

theorem Replaced.pendingAt (z x : Nat) :
    pendingAt z x l + (if it.clusterIdToSend = z ∧ offset ≤ x ∧ x < offset + count then 1 else 0) =
      pendingAt z x (pre ++ it :: post) := by
  rw [pendingAt_append, pendingAt_cons (e := it), pendingAt_waiting hw hr]
  cases h with
  | whole ho hc =>
    rw [pendingAt_append, pendingAt_cons, pendingAt_scheduled rfl, ho, hc]
    omega
  | piece mode hpos hlt ho =>
    rw [pendingAt_append, pendingAt_append, pendingAt_cons, pendingAt_scheduled rfl, pendingAt_waiting rfl rfl]
    subst ho
    have hcut := mode.parts it.offset (x := x) hlt (it.clusterIdToSend = z)
    simp only at hcut ⊢
    omega

theorem Replaced.outstandingAt : outstandingAt l + count = outstandingAt (pre ++ it :: post) := by
  rw [outstandingAt_append, outstandingAt_cons (e := it), outstandingAt_waiting hw hr]
  cases h with
  | whole ho hc =>
    rw [outstandingAt_append, outstandingAt_cons, outstandingAt_scheduled rfl, hc]
    omega
  | piece mode hpos hlt ho =>
    rw [outstandingAt_append, outstandingAt_append, outstandingAt_cons, outstandingAt_scheduled rfl,
      outstandingAt_waiting rfl rfl]
    simp only
    omega

end

theorem place_takenAt {b offset : Nat}
    (hjob : job.src ≠ job.dst) (hlist : s.infos (job.src, job.rank p) = pre ++ it :: post) (hr : it.isRecv = false)
    (hrep : Replaced loopId b it offset count pre post l k') (key : Nat × Nat) (x : Nat) :
    takenAt x ((s.place p loopId job b offset count l).infos key) = takenAt x (s.infos key) +
      if key = (job.dst, b) then (if offset ≤ x ∧ x < offset + count then 1 else 0) else 0 := by
  rw [takenAt_received, takenAt_received, place_received hjob hlist hr hrep, countP_append]
  split_ifs with h1 h2
  · simp [BufferInfo.Contains, recvInfo, h2]
  · have hx : ¬ (recvInfo offset count (job.rank p) loopId).Contains x := h2
    simp [hx]
  · rfl

theorem Visited.pending_taken (hjob : job.Valid p) (hv : Visited p loopId job s k s' k') (z x : Nat) :
    pending p s'.infos z x + taken p s'.infos z x = pending p s.infos z x + taken p s.infos z x := by
  cases hv with
  | skip hk => rfl
  | @place b offset count _ it pre post l hk hlist hw hb hfits hrep hcut =>
    have hpend : pending p (s.place p loopId job b offset count l).infos z x +
        (if job.dst = z ∧ offset ≤ x ∧ x < offset + count then 1 else 0) = pending p s.infos z x := by
      refine sum_map_single (keys_nodup p) hjob.mem_keys fun key _ => ?_
      rw [place_infos]
      by_cases h1 : key = (job.src, job.rank p)
      · subst h1
        rw [if_pos rfl, if_pos rfl, hlist, ← hrep.pendingAt hw.1 hw.2.1, hw.2.2]
      · split_ifs
        · rw [pendingAt_append, pendingAt_scheduled rfl, Nat.add_zero]
        · rfl
    have htake : taken p s.infos z x + (if job.dst = z ∧ offset ≤ x ∧ x < offset + count then 1 else 0) =
        taken p (s.place p loopId job b offset count l).infos z x := by
      by_cases hz : job.dst = z
      · subst hz
        refine sum_map_single (p.comm.nodup _) hb fun b' _ => ?_
        rw [place_takenAt hjob.ne hlist hw.2.1 hrep]
        simp
      · rw [if_neg fun h => hz h.1, Nat.add_zero]
        unfold taken
        congr 1
        refine map_congr_left fun b' _ => ?_
        have hne : (z, b') ≠ (job.dst, b) := fun h => hz (Prod.mk.inj h).1.symm
        rw [place_takenAt hjob.ne hlist hw.2.1 hrep, if_neg hne, Nat.add_zero]
    omega

theorem Visited.holds (hv : Visited p loopId job s k s' k') (x : Nat) (key : Nat × Nat) :
    holds x (s'.infos key) = holds x (s.infos key) :=
  holds_congr fun z => hv.covered z x key

theorem Visited.outstanding_le (hjob : job.Valid p) (hv : Visited p loopId job s k s' k') :
    outstanding p s'.infos ≤ outstanding p s.infos ∧
      (Positive s.infos → s' ≠ s → outstanding p s'.infos < outstanding p s.infos) := by
  cases hv with
  | skip hk => exact ⟨le_rfl, fun _ h => absurd rfl h⟩
  | @place b offset count _ it pre post l hk hlist hw hb hfits hrep hcut =>
    have hsum : outstanding p (s.place p loopId job b offset count l).infos + count = outstanding p s.infos := by
      refine sum_map_single (keys_nodup p) hjob.mem_keys fun key _ => ?_
      rw [place_infos]
      by_cases h1 : key = (job.src, job.rank p)
      · subst h1
        rw [if_pos rfl, if_pos rfl, hlist, hrep.outstandingAt hw.1 hw.2.1]
      · split_ifs
        · rw [outstandingAt_append, outstandingAt_scheduled rfl, Nat.add_zero]
        · rfl
    refine ⟨by omega, fun hpos _ => ?_⟩
    have hit : 0 < it.count := hpos (job.src, job.rank p) it (by simp [hlist])
    have hcount : 0 < count := by
      cases hrep with
      | whole ho hc => omega
      | piece mode hpos hlt ho => exact hpos
    omega

theorem taken_noRecv (h : NoRecv m) (z x : Nat) : taken p m z x = 0 := by
  unfold taken
  rw [List.sum_eq_zero_iff_forall_eq_nat]
  intro n hn
  obtain ⟨b, -, rfl⟩ := mem_map.1 hn
  rw [takenAt_received, h]
  rfl

theorem pending_taken_search (searchMethod loopId : Nat) (h : NoRecv m) (z x : Nat) :
    pending p (searchHeteroSendRecvOps p searchMethod loopId ⟨m, []⟩).infos z x +
      taken p (searchHeteroSendRecvOps p searchMethod loopId ⟨m, []⟩).infos z x = pending p m z x := by
  refine search_induct (P := fun s => pending p s.infos z x + taken p s.infos z x = pending p m z x) ?_ ?_
  · intro job s k s' k' hjob hs hv
    rw [hv.pending_taken hjob, hs]
  · simp only [taken_noRecv h, Nat.add_zero]

theorem outstanding_search (p : Planner) (searchMethod loopId : Nat) (m : BufferInfos) :
    outstanding p (searchHeteroSendRecvOps p searchMethod loopId ⟨m, []⟩).infos ≤ outstanding p m := by
  refine search_induct (P := fun s => outstanding p s.infos ≤ outstanding p m) ?_ (le_rfl)
  intro job s k s' k' hjob hs hv
  exact le_trans (hv.outstanding_le hjob).1 hs

theorem Positive.search (h : Positive m) : Positive (searchHeteroSendRecvOps p searchMethod loopId ⟨m, []⟩).infos :=
  search_induct (P := fun s => Positive s.infos) (fun _ _ _ _ _ _ hs hv => hs.visited hv) h

end Kept

/-! ## Rounds make progress -/

section Progress
variable {p : Planner} {searchMethod loopId j a z : Nat} {m : BufferInfos}

/-- Every send that waits finds its first element free at some inter-rank of its destination. -/
def Roomy (p : Planner) (m : BufferInfos) : Prop :=
  ∀ j z, j ≠ z → ∀ a ∈ p.ranks j, ∀ e ∈ unplaced z (m (j, a)), ∃ b ∈ p.ranks z, Free m z b e.offset

theorem mem_unplaced {e : BufferInfo} {l : List BufferInfo} :
    e ∈ unplaced z l ↔ e ∈ l ∧ e.isScheduled = false ∧ e.isRecv = false ∧ e.clusterIdToSend = z := by
  simp [unplaced, and_assoc]

/-- **A round with a waiting send schedules something.** -/
theorem search_progress (hpos : Positive m) (hroom : Roomy p m) (ha : a ∈ p.ranks j) (hz : p.ranks z ≠ [])
    (hne : j ≠ z) {e : BufferInfo} (he : e ∈ unplaced z (m (j, a))) :
    outstanding p (searchHeteroSendRecvOps p searchMethod loopId ⟨m, []⟩).infos < outstanding p m := by
  obtain ⟨b, hb⟩ := exists_mem_of_ne_nil _ hz
  obtain ⟨js, job, js', hsplit, rfl, rfl, rfl, -, -⟩ := searchJobs_split ha hb hne
  have hvalid : ∀ x ∈ searchJobs p, x.Valid p := fun _ hx => mem_searchJobs hx
  rw [hsplit] at hvalid
  have hv : job.Valid p := hvalid job (mem_append_right _ mem_cons_self)
  unfold searchHeteroSendRecvOps
  rw [hsplit, foldl_append, foldl_cons]
  -- until something is placed the lists are those of the start
  let Still : SearchState → Prop := fun s => s.infos = m ∨ outstanding p s.infos < outstanding p m
  have hkeep : ∀ x ∈ js ++ job :: js', ∀ s k s' k', Still s → Visited p loopId x s k s' k' → Still s' := by
    intro x hx s k s' k' hs hvis
    obtain ⟨hle, hlt⟩ := hvis.outstanding_le (hvalid x hx)
    rcases hs with hs | hs
    · rw [hs] at hle hlt
      by_cases hsame : s' = s
      · exact .inl (by rw [hsame, hs])
      · exact .inr (hlt hpos hsame)
    · exact .inr (lt_of_le_of_lt hle hs)
  have hbefore : Still (js.foldl (fun s job => scan p searchMethod loopId job s) ⟨m, []⟩) :=
    scans_induct (fun x hx => hvalid x (mem_append_left _ hx)) (fun x hx => hkeep x (mem_append_left _ hx)) (.inl rfl)
  generalize js.foldl (fun s job => scan p searchMethod loopId job s) ⟨m, []⟩ = s at hbefore
  -- the walk cannot pass a range that waits
  have hscan : outstanding p (scan p searchMethod loopId job s).infos < outstanding p m := by
    let Passed : SearchState → Nat → Prop := fun s k =>
      outstanding p s.infos < outstanding p m ∨
        (s.infos = m ∧ ∀ n < k, ∀ it, (m (job.src, job.rank p))[n]? = some it → ¬ wanted job it)
    have hstep : ∀ s k s' k', Passed s k → visit p searchMethod loopId job s k = some (s', k') → Passed s' k' := by
      intro s k s' k' hs hvis
      have hvd := visit_visited hv.ne hvis
      obtain ⟨hle, hlt⟩ := hvd.outstanding_le hv
      rcases hs with hs | ⟨hm, hnone⟩
      · exact .inl (lt_of_le_of_lt hle hs)
      · rw [hm] at hle hlt
        by_cases hsame : s' = s
        · subst hsame
          refine .inr ⟨hm, fun n hn it hit hw => ?_⟩
          by_cases hnk : n < k
          · exact hnone n hnk it hit hw
          · obtain ⟨b', hb', hfree⟩ := hroom _ _ hv.ne _ hv.rank_mem it (mem_unplaced.2 ⟨mem_of_getElem? hit, hw⟩)
            rw [← hm] at hpos hfree hit
            -- the position moves by at most one, so the range at `k` was skipped
            have hk' : k' = k + 1 ∧ n = k := by
              rcases hvd.position with h | h <;> omega
            rw [hk'.1] at hvis
            rw [hk'.2] at hit
            exact visit_ne_skip hpos hit hw hb' hfree hvis
        · exact .inl (hlt hpos hsame)
    obtain ⟨k, hk, hend⟩ := scan_rule hv.ne hstep
      (hbefore.symm.imp id fun h => ⟨h, fun n hn => absurd hn (Nat.not_lt_zero n)⟩)
    rcases hk with hk | ⟨hm, hnone⟩
    · exact hk
    · obtain ⟨hmem, hw⟩ := mem_unplaced.1 he
      obtain ⟨n, hn, hget⟩ := mem_iff_getElem.1 hmem
      unfold Ended at hend
      rw [hm] at hend
      exact absurd hw (hnone n (by omega) e (by rw [getElem?_eq_getElem hn, hget]))
  refine scans_induct (P := fun s => outstanding p s.infos < outstanding p m)
    (fun x hx => hvalid x (mem_append_right _ (mem_cons_of_mem _ hx))) ?_ hscan
  intro x hx s k s' k' hs hvis
  exact lt_of_le_of_lt (hvis.outstanding_le (hvalid x (mem_append_right _ (mem_cons_of_mem _ hx)))).1 hs

end Progress

/-! ## Rounds that place everything -/

section Clears
variable {p : Planner} {searchMethod loopId j a z : Nat} {m : BufferInfos}

theorem length_le_countP_add_sum {α : Type} {f : α → Bool} {g : α → Nat} {l : List α}
    (h : ∀ x ∈ l, f x = true ∨ 0 < g x) : l.length ≤ l.countP f + (l.map g).sum := by
  induction l with
  | nil => exact le_rfl
  | cons x l ih =>
    have := ih fun y hy => h y (mem_cons_of_mem _ hy)
    have hx := h x mem_cons_self
    simp only [length_cons, countP_cons, map_cons, sum_cons]
    split_ifs with hf
    · omega
    · have := hx.resolve_left hf
      omega

theorem exists_free {x : Nat} (h : holders p m z x + taken p m z x < (p.ranks z).length) :
    ∃ b ∈ p.ranks z, Free m z b x := by
  by_contra hnone
  have hall : ∀ b ∈ p.ranks z, holds x (m (z, b)) = true ∨ 0 < takenAt x (m (z, b)) := by
    intro b hb
    by_contra hn
    rw [not_or, Bool.not_eq_true, not_lt, Nat.le_zero] at hn
    exact hnone ⟨b, hb, fun e he => not_contains_of hn.1 hn.2 he⟩
  have := length_le_countP_add_sum hall
  unfold holders taken at h
  omega

variable {e : BufferInfo}

theorem pendingAt_pos {l : List BufferInfo} {x : Nat} (he : e ∈ unplaced z l) (hx : e.Contains x) :
    0 < pendingAt z x l := countP_pos_iff.2 ⟨e, he, by simpa using hx⟩

theorem pending_pos {x : Nat} (ha : a ∈ p.ranks j) (he : e ∈ unplaced z (m (j, a)))
    (hx : e.Contains x) : 0 < pending p m z x := by
  refine Nat.pos_of_ne_zero fun h0 => Nat.pos_iff_ne_zero.1 (pendingAt_pos he hx) ?_
  unfold pending at h0
  rw [List.sum_eq_zero_iff_forall_eq_nat] at h0
  exact h0 _ (mem_map.2 ⟨(j, a), mem_keys.2 (show a ∈ p.ranks j from ha), rfl⟩)

/-- **A round places all sends to `z` that start within `X`** if every element of `X` has an inter-rank of `z` for each
send that waits, beside those at which a send of their own covers it. -/
theorem search_clears {X : Nat → Prop} (hno : NoRecv m) (hpos : Positive m) (ha : a ∈ p.ranks j) (hz : p.ranks z ≠ [])
    (hne : j ≠ z) (hroom : ∀ x, X x → holders p m z x + pending p m z x ≤ (p.ranks z).length)
    (he : e ∈ unplaced z ((searchHeteroSendRecvOps p searchMethod loopId ⟨m, []⟩).infos (j, a))) :
    ¬ X e.offset := by
  obtain ⟨b, hb⟩ := exists_mem_of_ne_nil _ hz
  obtain ⟨js, job, js', hsplit, rfl, rfl, rfl, -, hjs'⟩ := searchJobs_split ha hb hne
  have hvalid : ∀ x ∈ searchJobs p, x.Valid p := fun _ hx => mem_searchJobs hx
  unfold searchHeteroSendRecvOps at he
  rw [hsplit] at hvalid he
  have hv : job.Valid p := hvalid job (mem_append_right _ mem_cons_self)
  rw [foldl_append, foldl_cons] at he
  let Kept : SearchState → Prop := fun s =>
    Positive s.infos ∧ ∀ x, pending p s.infos job.dst x + taken p s.infos job.dst x = pending p m job.dst x ∧
      holders p s.infos job.dst x = holders p m job.dst x
  have hkeep : ∀ {y s k s' k'}, y.Valid p → Kept s → Visited p loopId y s k s' k' → Kept s' := by
    intro y s k s' k' hy hs hvis
    refine ⟨hs.1.visited hvis, fun x => ⟨?_, ?_⟩⟩
    · rw [hvis.pending_taken hy, (hs.2 x).1]
    · rw [← (hs.2 x).2]
      unfold holders
      congr 1
      funext b
      exact hvis.holds x _
  have hbefore : Kept (js.foldl (fun s job => scan p searchMethod loopId job s) ⟨m, []⟩) := by
    refine scans_induct (fun x hx => hvalid x (mem_append_left _ hx))
      (fun x hx s k s' k' => hkeep (hvalid x (mem_append_left _ hx))) ⟨hpos, fun x => ⟨?_, rfl⟩⟩
    rw [taken_noRecv hno, Nat.add_zero]
  generalize js.foldl (fun s job => scan p searchMethod loopId job s) ⟨m, []⟩ = s at hbefore he
  -- the walk leaves nothing behind that starts within `X`
  let Clear : SearchState → Nat → Prop := fun s k =>
    Kept s ∧ ∀ n < k, ∀ it, (s.infos (job.src, job.rank p))[n]? = some it → wanted job it → ¬ X it.offset
  have hstep : ∀ s k s' k', Clear s k → visit p searchMethod loopId job s k = some (s', k') → Clear s' k' := by
    intro s k s' k' hs hvis
    have hvd := visit_visited hv.ne hvis
    refine ⟨hkeep hv hs.1 hvd, fun n hn it hit hw hX => ?_⟩
    cases hvd with
    | skip hk =>
      by_cases hnk : n < k
      · exact hs.2 n hnk it hit hw hX
      · obtain rfl : n = k := by omega
        have hcount : 0 < it.count := hs.1.1 _ it (mem_of_getElem? hit)
        have hfirst : it.Contains it.offset := ⟨le_rfl, Nat.lt_add_of_pos_right hcount⟩
        have hwait := pending_pos hv.rank_mem (mem_unplaced.2 ⟨mem_of_getElem? hit, hw⟩) hfirst
        have hx := hroom it.offset hX
        obtain ⟨hpt, hh⟩ := hs.1.2 it.offset
        obtain ⟨b', hb', hfree⟩ := exists_free (p := p) (m := s.infos) (z := job.dst) (x := it.offset) (by omega)
        exact visit_ne_skip hs.1.1 hit hw hb' hfree hvis
    | @place b₁ offset count _ it₁ pre post l hk hlist hw₁ hb₁ hfits hrep hcut =>
      have hself : (s.place p loopId job b₁ offset count l).infos (job.src, job.rank p) = l := by
        rw [place_infos, if_pos rfl]
      rw [hself] at hit
      have hold : ∀ i < pre.length, (s.infos (job.src, job.rank p))[i]? = pre[i]? := by
        intro i hi
        rw [hlist, getElem?_append_left hi]
      cases hrep with
      | whole ho hc =>
        by_cases hnk : n < pre.length
        · rw [getElem?_append_left hnk, ← hold n hnk] at hit
          exact hs.2 n (by omega) it hit hw hX
        · obtain rfl : n = pre.length := by omega
          rw [getElem?_append_right (Nat.le_refl _), Nat.sub_self] at hit
          obtain rfl := Option.some.inj hit
          exact absurd hw.1 (by simp)
      | piece mode hpos' hlt ho =>
        rw [append_assoc, getElem?_append_left hn, ← hold n hn] at hit
        exact hs.2 n (by omega) it hit hw hX
  have hscan : ∀ it ∈ unplaced job.dst ((scan p searchMethod loopId job s).infos (job.src, job.rank p)),
      ¬ X it.offset := by
    obtain ⟨k, hk, hend⟩ := scan_rule hv.ne hstep ⟨hbefore, fun n hn => absurd hn (Nat.not_lt_zero n)⟩
    intro it hit
    obtain ⟨hmem, hw⟩ := mem_unplaced.1 hit
    obtain ⟨n, hn, hget⟩ := mem_iff_getElem.1 hmem
    unfold Ended at hend
    exact hk.2 n (by omega) it (by rw [getElem?_eq_getElem hn, hget]) hw
  -- the walks after it leave the list alone as far as the pair is concerned
  refine scans_induct (P := fun s => ∀ it ∈ unplaced job.dst (s.infos (job.src, job.rank p)), ¬ X it.offset)
    (fun x hx => hvalid x (mem_append_right _ (mem_cons_of_mem _ hx))) ?_ hscan e he
  intro x hx s k s' k' hs hvis
  have hx' := hvalid x (mem_append_right _ (mem_cons_of_mem _ hx))
  rw [(hvis.frame hx' hv.rank_mem hb (hjs' x hx) loopId).2.2]
  exact hs

theorem takenAt_search (hno : NoRecv m) (key : Nat × Nat) (x : Nat) :
    takenAt x ((searchHeteroSendRecvOps p searchMethod loopId ⟨m, []⟩).infos key) +
      (if holds x (m key) = true then 1 else 0) ≤ 1 := by
  have hinv : holds x ((searchHeteroSendRecvOps p searchMethod loopId ⟨m, []⟩).infos key) = holds x (m key) ∧
      takenAt x ((searchHeteroSendRecvOps p searchMethod loopId ⟨m, []⟩).infos key) +
        (if holds x (m key) = true then 1 else 0) ≤ 1 := by
    refine search_induct (P := fun s => holds x (s.infos key) = holds x (m key) ∧
      takenAt x (s.infos key) + (if holds x (m key) = true then 1 else 0) ≤ 1) ?_ ⟨rfl, ?_⟩
    · intro job s k s' k' hjob hs hvis
      refine ⟨(hvis.holds x key).trans hs.1, ?_⟩
      cases hvis with
      | skip hk => exact hs.2
      | @place b offset count _ it pre post l hk hlist hw hb hfits hrep hcut =>
        rw [place_takenAt hjob.ne hlist hw.2.1 hrep]
        by_cases h : key = (job.dst, b) ∧ offset ≤ x ∧ x < offset + count
        · -- an element of the placed range is free where it goes
          obtain ⟨rfl, hx⟩ := h
          have hfree : ∀ e ∈ s.infos (job.dst, b), ¬ e.Contains x := fun e he hex =>
            disjoint_of_possibleToPush (e := recvInfo offset count (job.rank p) loopId) hfits he x ⟨hx, hex⟩
          have hh : holds x (m (job.dst, b)) = false := by
            rw [← hs.1, Bool.eq_false_iff, holds, Ne, any_eq_true]
            rintro ⟨e, he, hex⟩
            exact hfree e he (by simpa using (Bool.and_eq_true_iff.1 hex).2)
          have ht : takenAt x (s.infos (job.dst, b)) = 0 :=
            countP_eq_zero.2 fun e he hex => hfree e he (by simpa using (Bool.and_eq_true_iff.1 hex).2)
          rw [hh, ht, if_pos rfl, if_pos hx]
          exact le_rfl
        · have hadd : (if key = (job.dst, b) then (if offset ≤ x ∧ x < offset + count then 1 else 0) else 0) = 0 := by
            split_ifs with h1 h2
            · exact absurd ⟨h1, h2⟩ h
            · rfl
            · rfl
          rw [hadd, Nat.add_zero]
          exact hs.2
    · rw [takenAt_received, hno]
      split_ifs <;> simp
  exact hinv.2

theorem add_countP_le_length {α : Type} {f : α → Bool} {g : α → Nat} {l : List α}
    (h : ∀ x ∈ l, g x + (if f x = true then 1 else 0) ≤ 1) : (l.map g).sum + l.countP f ≤ l.length := by
  induction l with
  | nil => exact le_rfl
  | cons x l ih =>
    have := ih fun y hy => h y (mem_cons_of_mem _ hy)
    have hx := h x mem_cons_self
    simp only [length_cons, countP_cons, map_cons, sum_cons]
    omega

theorem pending_search_pos (hno : NoRecv m) {x : Nat} (h : (p.ranks z).length < holders p m z x + pending p m z x) :
    0 < pending p (searchHeteroSendRecvOps p searchMethod loopId ⟨m, []⟩).infos z x := by
  have hsum := pending_taken_search (p := p) searchMethod loopId hno z x
  have hle := add_countP_le_length (l := p.ranks z) (f := fun b => holds x (m (z, b)))
    (g := fun b => takenAt x ((searchHeteroSendRecvOps p searchMethod loopId ⟨m, []⟩).infos (z, b)))
    fun b _ => takenAt_search hno (z, b) x
  unfold holders at h
  unfold taken at hsum
  omega

end Clears

end FlagCX.C2c
