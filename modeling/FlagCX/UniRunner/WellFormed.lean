import FlagCX.UniRunner.Builders
import FlagCX.Lib.Pipeline

/-!
# Every builder's DAG is well formed

Each builder's graph is a pipelined chain (`Dag.Pipeline`) of two phases, the steps of the first followed by
`numRedSlices` reductions each and those of the second by none.

* `Matches`            : a node has the parent counter and the children of a slot of a pipeline.
* `wellFormed_ofEmitted` : a builder whose nodes match the slots in order leaves a well-formed state.
* `builders_wellFormed_iff` : all builders' states are well formed, except that of the all-gather ring without slices.
-/

namespace FlagCX.UniRunner
open List Function

open Dag

/-! ## From a pipeline to a well-formed state -/

/-- Node `e` is wired like slot `c` of the pipeline, and enqueued at once if it is the first transfer. -/
structure Matches (P : Pipeline) (e : Emitted) (c : Slot) : Prop where
  numParents : e.node.numParents = (P.parents c).length
  children : e.node.children.Perm ((P.kids c).map P.idx)
  ready : e.ready = decide (c = .p2p 0 0)

/-- Node `e` is wired like slot `c` and has the operations `D` gives it. -/
def Carries (P : Pipeline) (D : Slot → NodeData) (e : Emitted) (c : Slot) : Prop := Matches P e c ∧ e.node.nodeData = D c

variable {P : Pipeline}

variable {es : List Emitted}

theorem matches_lists (h : List.Forall₂ (Matches P) es P.slots) : P.wiring.Lists (es.map (·.node.children)) :=
  forall₂_map_left_iff.2 (h.imp fun _ _ hm => hm.children)

variable {e : Emitted}

theorem matches_get (h : List.Forall₂ (Matches P) es P.slots) {v : Nat}
    (hv : es[v]? = some e) : ∃ c ∈ P.slots, P.idx c = v ∧ Matches P e c := by
  obtain ⟨hlt, rfl⟩ := List.getElem?_eq_some_iff.1 hv
  have hlt' : v < P.slots.length := h.length_eq ▸ hlt
  exact ⟨P.slots[v], getElem_mem hlt', P.numbering.idx_of_getElem? (by simp [hlt']), h.get hlt hlt'⟩

theorem Matches.ready_iff {c : Slot} (hm : Matches P e c) (hc : c ∈ P.slots) : e.ready = true ↔ e.node.numParents = 0 := by
  rw [hm.ready, hm.numParents, decide_eq_true_iff, length_eq_zero_iff, P.parents_eq_nil hc]

theorem matches_ready_iff (h : List.Forall₂ (Matches P) es P.slots) (he : e ∈ es) :
    e.ready = true ↔ e.node.numParents = 0 := by
  obtain ⟨v, hv⟩ := getElem?_of_mem he
  obtain ⟨c, hc, -, hm⟩ := matches_get h hv
  exact hm.ready_iff hc

theorem mem_readyIndices {v : Nat} : v ∈ readyIndices es ↔ ∃ e, es[v]? = some e ∧ e.ready = true := by
  simp only [readyIndices, mem_filter, mem_range, Option.any_eq_true]
  constructor
  · exact fun h => h.2
  · rintro ⟨e, he, hr⟩
    exact ⟨(List.getElem?_eq_some_iff.1 he).1, e, he, hr⟩

/-- **Nodes that match the slots of a pipeline, in order, make a well-formed state.** -/
theorem wellFormed_ofEmitted (h : List.Forall₂ (Matches P) es P.slots) :
    (RunnerState.ofEmitted (P.slices * P.nodesPerSlice) es).WellFormed where
  length_eq := by
    rw [← P.slots_length, ← h.length_eq]
    exact length_map _
  child_lt := by
    intro node hnode c hc
    obtain ⟨e, he, rfl⟩ := mem_map.1 hnode
    obtain ⟨v, hv⟩ := getElem?_of_mem he
    have := (matches_lists h).child_lt (u := v) (v := c) ⟨e.node.children, by simp [hv], hc⟩
    rwa [Pipeline.numbering_slots, P.slots_length] at this
  numParents_eq := by
    intro v node hv
    obtain ⟨e, he, rfl⟩ : ∃ e, es[v]? = some e ∧ e.node = node := by simpa [RunnerState.ofEmitted] using hv
    obtain ⟨c, hc, rfl, hm⟩ := matches_get h he
    have hin : inEdges (es.map (·.node.children)) (P.idx c) = (P.parents c).length := (matches_lists h).inEdges_eq hc
    rw [hm.numParents, ← hin]
    simp [RunnerState.children, RunnerState.ofEmitted, comp_def]
  acyclic := by
    have := (matches_lists h).acyclic
    simpa [RunnerState.children, RunnerState.ofEmitted, comp_def] using this
  ready_nodup := by simpa [RunnerState.readyNodes, RunnerState.ofEmitted, readyIndices] using nodup_range.filter _
  mem_ready := by
    intro v
    simp only [RunnerState.readyNodes, RunnerState.ofEmitted, append_nil, mem_readyIndices, getElem?_map,
      Option.map_eq_some_iff]
    constructor
    · rintro ⟨e, he, hr⟩
      exact ⟨e.node, ⟨e, he, rfl⟩, (matches_ready_iff h (mem_of_getElem? he)).1 hr⟩
    · rintro ⟨_, ⟨e, he, rfl⟩, hp⟩
      exact ⟨e, he, (matches_ready_iff h (mem_of_getElem? he)).2 hp⟩
  pending_eq := by
    simp only [RunnerState.ofEmitted, countP_map]
    refine congrArg _ (countP_congr fun e he => ?_)
    have := matches_ready_iff h he
    simp only [comp_apply, Bool.not_eq_true', decide_eq_true_iff, ← this, ne_eq, Bool.not_eq_true]

def addReady (st : RunnerState) (node : DagNode) : RunnerState :=
  { st with
    dagNodes := st.dagNodes ++ [node]
    numDagNodes := st.numDagNodes + 1
    p2pReadyQueue := st.numDagNodes :: st.p2pReadyQueue }

theorem getElem?_snoc {α : Type} {l : List α} {a x : α} {v : Nat} :
    (l ++ [a])[v]? = some x ↔ l[v]? = some x ∨ v = l.length ∧ a = x := by
  rcases lt_trichotomy v l.length with h | rfl | h
  · rw [getElem?_append_left h]
    simp [h.ne]
  · simp
  · rw [getElem?_eq_none (by simp; omega), getElem?_eq_none (by omega)]
    simp [h.ne']

theorem edge_snoc_nil {l : List (List Nat)} : Edge (l ++ [[]]) = Edge l := by
  ext u v
  constructor
  · rintro ⟨cs, hu, hv⟩
    rcases getElem?_snoc.1 hu with hu | ⟨-, rfl⟩
    · exact ⟨cs, hu, hv⟩
    · exact absurd hv (by simp)
  · rintro ⟨cs, hu, hv⟩
    exact ⟨cs, getElem?_snoc.2 (.inl hu), hv⟩

theorem inEdges_eq_zero {l : List (List Nat)} {v : Nat} (h : ∀ cs ∈ l, v ∉ cs) : inEdges l v = 0 := by
  refine sum_eq_zero fun x hx => ?_
  obtain ⟨cs, hcs, rfl⟩ := mem_map.1 hx
  exact count_eq_zero.2 (h cs hcs)

theorem addReady_wellFormed {st : RunnerState} (h : st.WellFormed) (data : NodeData) :
    (addReady st ⟨data, 0, []⟩).WellFormed := by
  have hch : (addReady st ⟨data, 0, []⟩).children = st.children ++ [[]] := by simp [addReady, RunnerState.children]
  have hin : ∀ v, inEdges (st.children ++ [[]]) v = inEdges st.children v := by simp [inEdges]
  have hnew : ∀ v, v ∈ st.readyNodes → v < st.numDagNodes := by
    intro v hv
    obtain ⟨node, hget, -⟩ := (h.mem_ready v).1 hv
    exact h.length_eq ▸ (List.getElem?_eq_some_iff.1 hget).1
  constructor
  · simp [addReady, h.length_eq]
  · intro node hnode c hc
    rcases mem_append.1 hnode with hnode | hnode
    · exact Nat.lt_succ_of_lt (h.child_lt node hnode c hc)
    · obtain rfl := mem_singleton.1 hnode
      exact absurd hc (by simp)
  · intro v node hv
    rw [hch, hin]
    rcases getElem?_snoc.1 hv with hv | ⟨rfl, rfl⟩
    · exact h.numParents_eq v node hv
    · refine (inEdges_eq_zero fun cs hcs hmem => ?_).symm
      obtain ⟨node, hnode, rfl⟩ := mem_map.1 hcs
      exact absurd (h.child_lt node hnode _ hmem) (by rw [h.length_eq]; exact lt_irrefl _)
  · rw [hch, Acyclic, edge_snoc_nil]
    exact h.acyclic
  · refine nodup_cons.2 ⟨fun hv => ?_, h.ready_nodup⟩
    exact lt_irrefl _ (hnew _ hv)
  · intro v
    have hmem : v ∈ (addReady st ⟨data, 0, []⟩).readyNodes ↔ v = st.numDagNodes ∨ v ∈ st.readyNodes := mem_cons
    rw [hmem, h.mem_ready]
    simp only [addReady, getElem?_snoc, h.length_eq]
    constructor
    · rintro (rfl | ⟨node, hv, hp⟩)
      · exact ⟨_, .inr ⟨rfl, rfl⟩, rfl⟩
      · exact ⟨node, .inl hv, hp⟩
    · rintro ⟨node, hv | ⟨rfl, -⟩, hp⟩
      · exact .inr ⟨node, hv, hp⟩
      · exact .inl rfl
  · simp [addReady, h.pending_eq]

/-! ## Loops -/

variable {body : Nat → Nat → List Emitted} {R : Emitted → Slot → Prop}

/-- A loop whose iterations match consecutive blocks of slots, `start k` being the node counter at iteration `k`. -/
theorem forNodes_matches {block : Nat → List Slot}
    (start : Nat → Nat) (n : Nat) (hstart : ∀ k < n, start (k + 1) = start k + (block k).length)
    (h : ∀ k < n, List.Forall₂ R (body k (start k)) (block k)) :
    List.Forall₂ R (forNodes body (start 0) n) ((range n).flatMap block) ∧
      start 0 + (forNodes body (start 0) n).length = start n := by
  induction n with
  | zero => exact ⟨by simp [forNodes], by simp [forNodes]⟩
  | succ n ih =>
    obtain ⟨ihm, ihl⟩ := ih (fun k hk => hstart k (by omega)) fun k hk => h k (by omega)
    have hn := h n (by omega)
    rw [Pipeline.flatMap_range_succ, forNodes]
    simp only [ihl]
    refine ⟨rel_append ihm hn, ?_⟩
    rw [length_append, ← add_assoc, ihl, hn.length_eq, hstart n (by omega)]

theorem slices_match (h : ∀ s < P.slices, List.Forall₂ R (body s (s * P.nodesPerSlice)) (P.sliceSlots s)) :
    List.Forall₂ R (forNodes body 0 P.slices) P.slots := by
  have := (forNodes_matches (fun s => s * P.nodesPerSlice) P.slices
    (fun s _ => by simp only [P.sliceSlots_length]; ring) h).1
  simpa [Pipeline.slots] using this

variable {s : Nat}

theorem twoPhases_match {k₁ k₂ : Nat} (hk : P.steps = k₁ + k₂) {phase1 phase2 : Nat → Nat → List Emitted}
    (h₁ : ∀ i < k₁, List.Forall₂ R (phase1 i (P.idx (.p2p s i))) (P.stepSlots s i))
    (h₂ : ∀ i < k₂, List.Forall₂ R (phase2 i (P.idx (.p2p s (k₁ + i)))) (P.stepSlots s (k₁ + i))) :
    List.Forall₂ R (twoPhases k₁ k₂ phase1 phase2 (s * P.nodesPerSlice)) (P.sliceSlots s) := by
  have hidx : ∀ i, P.idx (.p2p s (i + 1)) = P.idx (.p2p s i) + (P.stepSlots s i).length := by
    intro i
    rw [P.stepSlots_length]
    show s * P.nodesPerSlice + (P.off i + (1 + P.reds i)) = s * P.nodesPerSlice + P.off i + (1 + P.reds i)
    omega
  obtain ⟨hm₁, hl₁⟩ := forNodes_matches (fun i => P.idx (.p2p s i)) k₁ (fun i _ => hidx i) h₁
  obtain ⟨hm₂, -⟩ := forNodes_matches (fun i => P.idx (.p2p s (k₁ + i))) k₂ (fun i _ => hidx (k₁ + i)) h₂
  have hzero : P.idx (.p2p s 0) = s * P.nodesPerSlice := rfl
  simp only [hzero, add_zero] at hm₁ hl₁ hm₂
  rw [Pipeline.sliceSlots, hk, range_add, flatMap_append, flatMap_map]
  simp only [twoPhases, hl₁]
  exact rel_append hm₁ hm₂

/-! ## Chains of two phases -/

/-- `k₁` steps with `R` reductions each, then `k₂` steps without. -/
def phases (S k₁ k₂ R : Nat) : Pipeline where
  slices := S
  steps := k₁ + k₂
  reds i := if i < k₁ then R else 0

section Phases

variable {S k₁ k₂ R : Nat}

variable {i : Nat}

theorem phases_off_first (h : i ≤ k₁) : (phases S k₁ k₂ R).off i = i * (1 + R) := by
  induction i with
  | zero => simp [Pipeline.off]
  | succ i ih =>
    rw [Pipeline.off, ih (by omega), Nat.succ_mul]
    simp [phases, show i < k₁ by omega]

theorem phases_off_second (j : Nat) : (phases S k₁ k₂ R).off (k₁ + j) = k₁ * (1 + R) + j := by
  induction j with
  | zero => exact phases_off_first le_rfl
  | succ j ih =>
    rw [← add_assoc, Pipeline.off, ih]
    simp [phases]
    omega

theorem phases_nodesPerSlice : (phases S k₁ k₂ R).nodesPerSlice = k₁ * (1 + R) + k₂ := phases_off_second k₂

theorem idx_p2p_eq_zero (hi : i < k₁ + k₂) : (phases S k₁ k₂ R).idx (.p2p s i) = 0 ↔ s = 0 ∧ i = 0 := by
  have hoff : ∀ k, (phases S k₁ k₂ R).off k = 0 ↔ k = 0 := by
    intro k
    cases k with
    | zero => simp [Pipeline.off]
    | succ k => simp [Pipeline.off]
  have hn : (phases S k₁ k₂ R).nodesPerSlice ≠ 0 := by
    rw [Pipeline.nodesPerSlice, Ne, hoff]
    show ¬ k₁ + k₂ = 0
    omega
  simp [Pipeline.idx, hoff, hn]

theorem parents_p2p_length (s i : Nat) : ((phases S k₁ k₂ R).parents (.p2p s i)).length =
    (if s = 0 ∧ i = 0 then 0 else 1) + if 0 < i ∧ i ≤ k₁ then R else 0 := by
  have hprev : ((phases S k₁ k₂ R).prev s i).length = if s = 0 ∧ i = 0 then 0 else 1 := by
    unfold Pipeline.prev
    split_ifs <;> first | rfl | omega
  have hreds : (if 0 < i then (phases S k₁ k₂ R).redsOf s (i - 1) else []).length = if 0 < i ∧ i ≤ k₁ then R else 0 := by
    by_cases hi : 0 < i
    · rw [if_pos hi, Pipeline.redsOf, length_map, length_range]
      exact if_congr (by omega) rfl rfl
    · rw [if_neg hi, if_neg (by omega), length_nil]
  rw [Pipeline.parents, length_append, hprev, hreds]

theorem next_idx (hs : s < S) : ((phases S k₁ k₂ R).next s i).map (phases S k₁ k₂ R).idx =
    if s = S - 1 then if i + 1 < k₁ + k₂ then [(phases S k₁ k₂ R).off (i + 1)] else []
    else [(phases S k₁ k₂ R).idx (.p2p s i) + (phases S k₁ k₂ R).nodesPerSlice] := by
  have hlast : s + 1 < (phases S k₁ k₂ R).slices ↔ ¬ s = S - 1 := by
    show s + 1 < S ↔ _
    omega
  simp only [Pipeline.next, hlast]
  by_cases h : s = S - 1
  · simp only [h, not_true, if_true, if_false]
    show map _ (if i + 1 < k₁ + k₂ then _ else _) = _
    split_ifs <;> simp [Pipeline.idx]
  · simp only [h, not_false_iff, if_true, if_false, map_singleton, Pipeline.idx]
    congr 1
    ring

theorem redsOf_idx (hi : i < k₁) : ((phases S k₁ k₂ R).redsOf s i).map (phases S k₁ k₂ R).idx =
    (range R).map fun r => (phases S k₁ k₂ R).idx (.p2p s i) + 1 + r := by
  rw [Pipeline.redsOf, map_map, show (phases S k₁ k₂ R).reds i = R from if_pos hi]
  rfl

theorem redsOf_second (hi : k₁ ≤ i) : (phases S k₁ k₂ R).redsOf s i = [] := by
  rw [Pipeline.redsOf, show (phases S k₁ k₂ R).reds i = 0 from if_neg (by omega)]
  rfl

theorem idx_ne_last {j : Nat} (hs : s < S) (hlast : s = S - 1) (hj : j < k₂) :
    (phases S k₁ k₂ R).idx (.p2p s (k₁ + j)) ≠ S * (phases S k₁ k₂ R).nodesPerSlice - 1 ↔ j + 1 < k₂ := by
  obtain rfl : S = s + 1 := by omega
  have hnodes : (s + 1) * (phases (s + 1) k₁ k₂ R).nodesPerSlice =
      s * (phases (s + 1) k₁ k₂ R).nodesPerSlice + (k₁ * (1 + R) + k₂) := by
    rw [Nat.succ_mul, phases_nodesPerSlice]
  rw [hnodes, Pipeline.idx, phases_off_second]
  omega

variable {node : DagNode}

theorem red_match {r : Nat} (hi : i < k₁) (hp : node.numParents = 1)
    (hc : node.children = if i + 1 < k₁ + k₂ then [(phases S k₁ k₂ R).idx (.p2p s i) + 1 + R] else []) :
    Matches (phases S k₁ k₂ R) ⟨node, false⟩ (.red s i r) where
  numParents := hp
  children := by
    rw [hc]
    have hnext : (phases S k₁ k₂ R).idx (.p2p s (i + 1)) = (phases S k₁ k₂ R).idx (.p2p s i) + 1 + R := by
      simp only [Pipeline.idx, Pipeline.off, show (phases S k₁ k₂ R).reds i = R from if_pos hi]
      omega
    show List.Perm _ (map _ (if i + 1 < k₁ + k₂ then _ else _))
    split_ifs
    · rw [map_singleton, hnext]
    · rfl
  ready := by simp

theorem redNodes_match {count : Nat} {data : Nat → Nat → RedNodeData} {children : List Nat} {D : Slot → NodeData}
    (hi : i < k₁) (hc : children = if i + 1 < k₁ + k₂ then [(phases S k₁ k₂ R).idx (.p2p s i) + 1 + R] else [])
    (hD : ∀ r < R, D (.red s i r) = .red (data (partOffset count R r) (partCount count R r))) :
    List.Forall₂ (Carries (phases S k₁ k₂ R) D) (redNodes R count data children) ((phases S k₁ k₂ R).redsOf s i) := by
  rw [Pipeline.redsOf, show (phases S k₁ k₂ R).reds i = R from if_pos hi, redNodes, forall₂_map_left_iff,
    forall₂_map_right_iff]
  exact forall₂_same.2 fun r hr => ⟨red_match hi rfl hc, (hD r (mem_range.1 hr)).symm⟩

theorem first_match {ready : Bool} (hs : s < S) (hi : i < k₁) (hp : node.numParents =
      if (phases S k₁ k₂ R).idx (.p2p s i) = 0 then 0 else if i = 0 then 1 else 1 + R)
    (hc : node.children.Perm ((if s = S - 1 then if i + 1 < k₁ + k₂ then [(i + 1) * (1 + R)] else []
      else [(phases S k₁ k₂ R).idx (.p2p s i) + (phases S k₁ k₂ R).nodesPerSlice]) ++
      (range R).map fun r => (phases S k₁ k₂ R).idx (.p2p s i) + 1 + r))
    (hr : ready = decide ((phases S k₁ k₂ R).idx (.p2p s i) = 0)) :
    Matches (phases S k₁ k₂ R) ⟨node, ready⟩ (.p2p s i) := by
  have hzero := idx_p2p_eq_zero (S := S) (R := R) (s := s) (show i < k₁ + k₂ by omega)
  refine ⟨?_, ?_, ?_⟩
  · rw [parents_p2p_length, hp]
    split_ifs <;> omega
  · rw [Pipeline.kids, map_append, next_idx hs, redsOf_idx hi, phases_off_first (by omega)]
    exact hc
  · rw [hr]
    simp [hzero]

theorem stepSlots_second (hi : k₁ ≤ i) : (phases S k₁ k₂ R).stepSlots s i = [.p2p s i] := by
  rw [Pipeline.stepSlots, ← Pipeline.redsOf, redsOf_second hi]

theorem second_match {j : Nat} {ready : Bool} (hs : s < S)
    (hp : node.numParents = (if s = 0 ∧ k₁ + j = 0 then 0 else 1) + if 0 < k₁ ∧ j = 0 then R else 0)
    (hc : node.children = if s = S - 1 then if j + 1 < k₂ then [k₁ * (1 + R) + (j + 1)] else []
      else [(phases S k₁ k₂ R).idx (.p2p s (k₁ + j)) + (phases S k₁ k₂ R).nodesPerSlice])
    (hr : ready = decide (s = 0 ∧ k₁ + j = 0)) :
    Matches (phases S k₁ k₂ R) ⟨node, ready⟩ (.p2p s (k₁ + j)) := by
  refine ⟨?_, ?_, ?_⟩
  · rw [parents_p2p_length, hp]
    congr 1
    exact if_congr (by omega) rfl rfl
  · rw [Pipeline.kids, map_append, next_idx hs, redsOf_second (by omega), hc, add_assoc k₁,
      phases_off_second]
    simp only [Nat.add_lt_add_iff_left, map_nil, append_nil]
    rfl
  · rw [hr]
    simp

end Phases

/-! ## The builders -/

section Builders

variable (comm : Comm) (b : Buffers) (S R : Nat)

/-- The operations `ringAR` gives each slot of its pipeline. -/
def ringARData : Slot → NodeData
  | .p2p s i =>
    if i < comm.nranks - 1 then
      .p2p [sendOp comm b S (srcBase b i) ((comm.rank + comm.nranks - i) % comm.nranks) s,
        recvOp comm b S ((comm.rank + comm.nranks - i - 1) % comm.nranks) s]
    else
      .p2p [sendOp comm b S b.recvbuff ((comm.rank + comm.nranks + 1 - (i - (comm.nranks - 1))) % comm.nranks) s,
        recvOp comm b S ((comm.rank + comm.nranks - (i - (comm.nranks - 1))) % comm.nranks) s]
  | .red s i _ =>
    let rxChunk := (comm.rank + comm.nranks - i - 1) % comm.nranks
    let rxOffset := sliceOffset comm b S rxChunk s
    .red ⟨b.recvbuff + rxOffset, b.sendbuff + rxOffset, b.recvbuff + rxOffset, sliceCount comm b S rxChunk s⟩

theorem ringARNodes_match (hn : 2 ≤ comm.nranks) :
    List.Forall₂ (Carries (phases S (comm.nranks - 1) (comm.nranks - 1) 1) (ringARData comm b S)) (ringARNodes comm b S)
      (phases S (comm.nranks - 1) (comm.nranks - 1) 1).slots := by
  set k := comm.nranks - 1 with hk
  have hnps : 3 * k = (phases S k k 1).nodesPerSlice := by
    rw [phases_nodesPerSlice]
    ring
  simp only [ringARNodes, ← hk, hnps]
  refine slices_match (P := phases S k k 1) fun s hs => twoPhases_match rfl ?_ ?_
  · intro i hi
    have hreds : (phases S k k 1).redsOf s i = [.red s i 0] := by
      rw [Pipeline.redsOf, show (phases S k k 1).reds i = 1 from if_pos hi]
      rfl
    have hslots : (phases S k k 1).stepSlots s i = [.p2p s i, .red s i 0] := by rw [← hreds]; rfl
    rw [hslots]
    refine List.Forall₂.cons ⟨first_match hs hi rfl ?_ rfl, ?_⟩
      (List.Forall₂.cons ⟨red_match hi rfl ?_, rfl⟩ List.Forall₂.nil)
    · rw [if_pos (show i + 1 < k + k by omega), mul_comm (i + 1)]
      split_ifs <;> exact List.Perm.refl _
    · exact (if_pos hi).symm
    · rw [if_pos (by omega)]
  · intro j hj
    rw [stepSlots_second (by omega)]
    refine List.Forall₂.cons ⟨second_match hs ?_ ?_ ?_, ?_⟩ List.Forall₂.nil
    · simp only
      split_ifs <;> omega
    · by_cases hlast : s = S - 1
      · simp only [if_pos hlast]
        refine if_congr (idx_ne_last hs hlast hj) ?_ rfl
        rw [show 2 * comm.nranks + j - 1 = k * (1 + 1) + (j + 1) by omega]
      · simp only [if_neg hlast]
    · simp only [false_eq_decide_iff]
      omega
    · simp only [ringARData, ← hk, if_neg (show ¬ k + j < k by omega), Nat.add_sub_cancel_left]

theorem ringAR_wellFormed (hn : 2 ≤ comm.nranks) : (ringAR comm b S).WellFormed := by
  have hnps : 3 * (comm.nranks - 1) = (phases S (comm.nranks - 1) (comm.nranks - 1) 1).nodesPerSlice := by
    rw [phases_nodesPerSlice]
    ring
  rw [ringAR, hnps]
  exact wellFormed_ofEmitted (P := phases S (comm.nranks - 1) (comm.nranks - 1) 1)
    ((ringARNodes_match comm b S hn).imp fun _ _ h => h.1)

/-- The operations `slicedAR` gives each slot of its pipeline. -/
def slicedARData : Slot → NodeData
  | .p2p s i => ringARData comm b S (.p2p s i)
  | .red s i r =>
    let rxChunk := (comm.rank + comm.nranks - i - 1) % comm.nranks
    let rxOffset := sliceOffset comm b S rxChunk s
    let count := sliceCount comm b S rxChunk s
    .red ⟨b.recvbuff + (rxOffset + partOffset count R r), b.sendbuff + (rxOffset + partOffset count R r),
      b.recvbuff + (rxOffset + partOffset count R r), partCount count R r⟩

theorem slicedAR_nodes : ∃ es, slicedAR comm b S R =
      .ofEmitted (S * (phases S (comm.nranks - 1) (comm.nranks - 1) R).nodesPerSlice) es ∧
    List.Forall₂ (Carries (phases S (comm.nranks - 1) (comm.nranks - 1) R) (slicedARData comm b S R)) es
      (phases S (comm.nranks - 1) (comm.nranks - 1) R).slots := by
  set k := comm.nranks - 1 with hk
  have hnps : (R + 2) * k = (phases S k k R).nodesPerSlice := by
    rw [phases_nodesPerSlice]
    ring
  unfold slicedAR
  simp only [← hk, hnps]
  refine ⟨_, rfl, slices_match (P := phases S k k R) fun s hs => twoPhases_match rfl ?_ ?_⟩
  · intro i hi
    refine List.Forall₂.cons ⟨first_match hs hi rfl ?_ rfl, ?_⟩ (redNodes_match hi ?_ fun r _ => rfl)
    · rw [if_pos (show i + 1 < k + k by omega)]
      split_ifs <;> exact List.Perm.refl _
    · exact (if_pos hi).symm
    · rw [if_pos (by omega)]
  · intro j hj
    rw [stepSlots_second (by omega)]
    refine List.Forall₂.cons ⟨second_match hs ?_ ?_ ?_, ?_⟩ List.Forall₂.nil
    · simp only
      split_ifs <;> omega
    · by_cases hlast : s = S - 1
      · simp only [if_pos hlast, ← hk]
        refine if_congr (idx_ne_last hs hlast hj) ?_ rfl
        rw [mul_comm (1 + R), add_assoc]
      · simp only [if_neg hlast]
    · simp only [false_eq_decide_iff]
      omega
    · simp only [slicedARData, ringARData, ← hk, if_neg (show ¬ k + j < k by omega), Nat.add_sub_cancel_left]

theorem slicedAR_wellFormed : (slicedAR comm b S R).WellFormed := by
  obtain ⟨es, he, hm⟩ := slicedAR_nodes comm b S R
  rw [he]
  exact wellFormed_ofEmitted (P := phases S (comm.nranks - 1) (comm.nranks - 1) R) (hm.imp fun _ _ h => h.1)

/-- The operations `ringRS` gives each slot of its pipeline. -/
def ringRSData : Slot → NodeData
  | .p2p s i =>
    let txChunk := (comm.rank + comm.nranks - i - 1) % comm.nranks
    let rxChunk := (comm.rank + comm.nranks - i - 2) % comm.nranks
    let count := partCount b.count S s
    .p2p [⟨.send, comm.nextRank, (if i = 0 then b.sendbuff else b.scratchbuff) +
        (txChunk * b.count + partOffset b.count S s), count⟩,
      ⟨.recv, comm.prevRank, b.scratchbuff + (rxChunk * b.count + partOffset b.count S s), count⟩]
  | .red s i r =>
    let rxChunk := (comm.rank + comm.nranks - i - 2) % comm.nranks
    let count := partCount b.count S s
    let rxOffset := rxChunk * b.count + partOffset b.count S s
    .red ⟨b.scratchbuff + (rxOffset + partOffset count R r), b.sendbuff + (rxOffset + partOffset count R r),
      if i = comm.nranks - 2 then b.recvbuff + partOffset b.count S s + partOffset count R r
      else b.scratchbuff + (rxOffset + partOffset count R r), partCount count R r⟩

theorem ringRS_nodes (hn : 2 ≤ comm.nranks) : ∃ es, ringRS comm b S R =
      .ofEmitted (S * (phases S (comm.nranks - 1) 0 R).nodesPerSlice) es ∧
    List.Forall₂ (Carries (phases S (comm.nranks - 1) 0 R) (ringRSData comm b S R)) es
      (phases S (comm.nranks - 1) 0 R).slots := by
  set k := comm.nranks - 1 with hk
  have hk2 : comm.nranks - 2 = k - 1 := by omega
  have hnps : (R + 1) * k = (phases S k 0 R).nodesPerSlice := by
    rw [phases_nodesPerSlice]
    ring
  have hone : ∀ (f : Nat → Nat → List Emitted) (g : Nat), forNodes f g k = twoPhases k 0 f f g := by
    intro f g
    simp [twoPhases, forNodes]
  unfold ringRS
  simp only [← hk, hnps, hone]
  refine ⟨_, rfl, slices_match (P := phases S k 0 R) fun s hs => twoPhases_match rfl ?_ ?_⟩
  · intro i hi
    have hlast : i ≠ k - 1 ↔ i + 1 < k + 0 := by omega
    refine List.Forall₂.cons ⟨first_match hs hi rfl ?_ rfl, rfl⟩ (redNodes_match hi ?_ fun r _ => rfl)
    · simp only [hk2, hlast]
      exact perm_append_comm
    · simp only [hk2, ← hlast, ite_not, add_assoc]
  · intro j hj
    omega

theorem ringRS_wellFormed (hn : 2 ≤ comm.nranks) : (ringRS comm b S R).WellFormed := by
  obtain ⟨es, he, hm⟩ := ringRS_nodes comm b S R hn
  rw [he]
  exact wellFormed_ofEmitted (P := phases S (comm.nranks - 1) 0 R) (hm.imp fun _ _ h => h.1)

theorem ctz_pow_le {x : Nat} (hx : 0 < x) : 2 ^ ctz x ≤ x :=
  Nat.le_of_dvd hx (Nat.findGreatest_spec (P := fun k => 2 ^ k ∣ x) (Nat.zero_le x) (by simp))

theorem recvNodesPerSlice_lt {root : Nat} (hn : 2 ≤ comm.nranks) (hr : algoRank comm root ≠ 0) :
    recvNodesPerSlice comm root < nTotalSteps comm := by
  have hlt : algoRank comm root < comm.nranks := Nat.mod_lt _ (by omega)
  have hctz : ctz (algoRank comm root) < nTotalSteps comm := by
    refine Nat.lt_size.2 ?_
    have := ctz_pow_le (pos_of_ne_zero hr)
    omega
  unfold recvNodesPerSlice
  simp only [hr, ne_eq, not_false_iff, if_true, true_and]
  split_ifs with h₁ h₂
  · omega
  · refine lt_of_le_of_lt (Nat.size_le.2 ?_) hctz
    have := Nat.pow_le_pow_right (show 0 < 2 by omega) (Nat.sub_le (ctz (algoRank comm root)) 1)
    omega
  · exact hctz

theorem recvNodesPerSlice_root {root : Nat} (hr : algoRank comm root = 0) :
    recvNodesPerSlice comm root = nTotalSteps comm := by
  simp [recvNodesPerSlice, hr]

def sendNodesPerSlice (root : Nat) : Nat := if algoRank comm root ≠ 0 then 1 else 0

/-- The operations `treeRed` gives each slot of its pipeline. -/
def treeRedData (root : Nat) : Slot → NodeData
  | .p2p s i =>
    if i < recvNodesPerSlice comm root then
      .p2p [⟨.recv, (comm.rank + 2 ^ i) % comm.nranks, b.scratchbuff + (b.count + partOffset b.count S s),
        partCount b.count S s⟩]
    else
      .p2p [⟨.send, (comm.rank + comm.nranks - 2 ^ ctz (algoRank comm root)) % comm.nranks,
        (if recvNodesPerSlice comm root = 0 then b.sendbuff else b.scratchbuff) + partOffset b.count S s,
        partCount b.count S s⟩]
  | .red s i r =>
    let count := partCount b.count S s
    let rxOffset := b.count + partOffset b.count S s
    .red ⟨b.scratchbuff + (rxOffset + partOffset count R r),
      (if i = 0 then b.sendbuff else b.scratchbuff) + (rxOffset + partOffset count R r) - b.count,
      (if i = nTotalSteps comm - 1 then b.recvbuff else b.scratchbuff) + (rxOffset + partOffset count R r) - b.count,
      partCount count R r⟩

theorem treeRed_nodes (root : Nat) (hn : 2 ≤ comm.nranks) : ∃ es, treeRed comm b S R root =
      .ofEmitted (S * (phases S (recvNodesPerSlice comm root) (sendNodesPerSlice comm root) R).nodesPerSlice) es ∧
    List.Forall₂ (Carries (phases S (recvNodesPerSlice comm root) (sendNodesPerSlice comm root) R)
      (treeRedData comm b S R root)) es
      (phases S (recvNodesPerSlice comm root) (sendNodesPerSlice comm root) R).slots := by
  have hsend : (if algoRank comm root ≠ 0 then 1 else 0) = sendNodesPerSlice comm root := rfl
  unfold treeRed
  simp only [hsend]
  set c := recvNodesPerSlice comm root with hc
  set d := sendNodesPerSlice comm root with hd
  have hsteps : ∀ i < c, (i ≠ nTotalSteps comm - 1 ↔ i + 1 < c + d) := by
    intro i hi
    by_cases hr : algoRank comm root = 0
    · have := recvNodesPerSlice_root comm hr
      simp only [sendNodesPerSlice, hr, ne_eq, not_true, if_false] at hd
      omega
    · have := recvNodesPerSlice_lt comm hn hr
      simp only [sendNodesPerSlice, hr, ne_eq, not_false_iff, if_true] at hd
      omega
  have hnps : d + c + c * R = (phases S c d R).nodesPerSlice := by
    rw [phases_nodesPerSlice]
    ring
  simp only [hnps, mul_comm _ S]
  refine ⟨_, rfl, slices_match (P := phases S c d R) fun s hs => twoPhases_match rfl ?_ ?_⟩
  · intro i hi
    refine List.Forall₂.cons ⟨first_match hs hi rfl ?_ rfl, ?_⟩ (redNodes_match hi ?_ fun r _ => rfl)
    · simp only [hsteps i hi]
      exact perm_append_comm
    · exact (if_pos hi).symm
    · simp only [← hsteps i hi, ite_not, add_assoc]
  · intro j hj
    have hd1 : d ≤ 1 := by
      rw [hd, sendNodesPerSlice]
      split_ifs <;> omega
    rw [stepSlots_second (by omega)]
    refine List.Forall₂.cons ⟨second_match hs ?_ ?_ ?_, ?_⟩ List.Forall₂.nil
    · simp only [← hc]
      split_ifs <;> omega
    · simp only [if_neg (show ¬ j + 1 < d by omega)]
    · exact decide_eq_decide.2 (by omega)
    · simp only [treeRedData, ← hc, if_neg (show ¬ c + j < c by omega)]
      rfl

theorem treeRed_wellFormed (root : Nat) (hn : 2 ≤ comm.nranks) : (treeRed comm b S R root).WellFormed := by
  obtain ⟨es, he, hm⟩ := treeRed_nodes comm b S R root hn
  rw [he]
  exact wellFormed_ofEmitted (P := phases S (recvNodesPerSlice comm root) (sendNodesPerSlice comm root) R)
    (hm.imp fun _ _ h => h.1)

theorem ringAGChain_matches :
    List.Forall₂ (fun e c => Matches (phases S 0 (comm.nranks - 1) 0) ⟨e.node, e.node.numParents = 0⟩ c)
      (ringAGChain comm b S) (phases S 0 (comm.nranks - 1) 0).slots := by
  have hnps : comm.nranks - 1 = (phases S 0 (comm.nranks - 1) 0).nodesPerSlice := by
    rw [phases_nodesPerSlice]
    omega
  have hone : ∀ (f : Nat → Nat → List Emitted) (g k : Nat), forNodes f g k = twoPhases 0 k f f g := by
    intro f g k
    simp [twoPhases, forNodes]
  simp only [ringAGChain, hone _ _ (comm.nranks - 1)]
  refine slices_match (P := phases S 0 (comm.nranks - 1) 0) fun s hs => twoPhases_match rfl (fun i hi => by omega) ?_
  intro j hj
  have hs' : s < S := hs
  have hzero := idx_p2p_eq_zero (S := S) (R := 0) (s := s) (show 0 + j < 0 + (comm.nranks - 1) by omega)
  refine List.Forall₂.cons (second_match hs' ?_ ?_ ?_) List.Forall₂.nil
  · simp only [hzero, lt_irrefl, false_and, if_false, add_zero]
  · by_cases hlast : s = S - 1
    · simp only [if_pos hlast]
      have hne : (phases S 0 (comm.nranks - 1) 0).idx (.p2p s (0 + j)) ≠
          S * (phases S 0 (comm.nranks - 1) 0).nodesPerSlice - 1 ↔ j + 1 < comm.nranks - 1 := idx_ne_last hs' hlast hj
      rw [← hnps] at hne
      exact if_congr hne (by simp) rfl
    · simp only [if_neg hlast, ← hnps]
  · simp only [hzero]
    refine decide_eq_decide.2 ?_
    split_ifs with h
    · exact iff_of_true rfl h
    · exact iff_of_false (by decide) h

theorem matches_queue (h : List.Forall₂ (Matches P) es P.slots) (hmem : .p2p 0 0 ∈ P.slots) :
    readyIndices es = [0] ∧ es.countP (!·.ready) + 1 = es.length := by
  have hflags : es.map (·.ready) = P.slots.map fun c => decide (c = .p2p 0 0) := by
    rw [← forall₂_eq_eq_eq, forall₂_map_left_iff, forall₂_map_right_iff]
    exact h.imp fun _ _ hm => hm.ready
  have hone : es.countP (·.ready) = 1 := by
    have : es.countP (·.ready) = (es.map (·.ready)).countP id := by rw [countP_map]; rfl
    rw [this, hflags, countP_map, ← count_eq_one_of_mem P.numbering.slots_nodup hmem, count]
    refine countP_congr fun c _ => ?_
    simp
  refine ⟨perm_singleton.1 ((perm_ext_iff_of_nodup (nodup_range.filter _) (nodup_singleton 0)).2 fun v => ?_), ?_⟩
  · rw [mem_singleton, ← readyIndices, mem_readyIndices]
    constructor
    · rintro ⟨e, he, hr⟩
      obtain ⟨c, -, rfl, hm⟩ := matches_get h he
      rw [hm.ready, decide_eq_true_iff] at hr
      subst hr
      simp [Pipeline.idx, Pipeline.off]
    · rintro rfl
      have hlt : 0 < es.length := by
        rw [h.length_eq]
        exact length_pos_of_mem hmem
      obtain ⟨c, hc, hidx, hm⟩ := matches_get h (getElem?_eq_getElem hlt)
      have hc0 : c = .p2p 0 0 := P.numbering.idx_inj hc hmem (hidx.trans (by simp [Pipeline.idx, Pipeline.off]))
      exact ⟨es[0], getElem?_eq_getElem hlt, by rw [hm.ready, hc0]; rfl⟩
  · have := length_eq_countP_add_countP (fun e : Emitted => e.ready) (l := es)
    simp only [Bool.not_eq_true, Bool.decide_eq_false] at this
    omega

theorem ringAG_wellFormed (hn : 2 ≤ comm.nranks) (hS : 0 < S) : (ringAG comm b S).WellFormed := by
  have hchain := ringAGChain_matches comm b S
  set flag : Emitted → Emitted := fun e => ⟨e.node, e.node.numParents = 0⟩ with hflag
  have hm : List.Forall₂ (Matches (phases S 0 (comm.nranks - 1) 0)) ((ringAGChain comm b S).map flag)
      (phases S 0 (comm.nranks - 1) 0).slots := forall₂_map_left_iff.2 hchain
  have hnodes : (phases S 0 (comm.nranks - 1) 0).slices * (phases S 0 (comm.nranks - 1) 0).nodesPerSlice =
      S * (comm.nranks - 1) := by
    rw [phases_nodesPerSlice, zero_mul, zero_add]
    rfl
  have hlen : (ringAGChain comm b S).length = S * (comm.nranks - 1) := by
    rw [hchain.length_eq, Pipeline.slots_length, hnodes]
  have hmem : .p2p 0 0 ∈ (phases S 0 (comm.nranks - 1) 0).slots := by
    rw [Pipeline.p2p_mem_slots]
    show 0 < S ∧ 0 < 0 + (comm.nranks - 1)
    omega
  obtain ⟨hqueue, hpend⟩ := matches_queue hm hmem
  have hwf := addReady_wellFormed (wellFormed_ofEmitted hm)
    (.cpy ⟨b.sendbuff + partOffset b.count comm.nranks comm.rank, b.recvbuff + partOffset b.count comm.nranks comm.rank,
      partCount b.count comm.nranks comm.rank⟩)
  rw [hnodes] at hwf
  convert hwf using 1
  simp only [ringAG, addReady, RunnerState.ofEmitted, hqueue, hlen, map_map]
  rw [length_map, hlen] at hpend
  simp only [RunnerState.mk.injEq, true_and]
  refine ⟨rfl, by omega⟩

theorem ringAG_no_slices (hS : S = 0) : ¬ (ringAG comm b S).WellFormed := by
  subst hS
  intro h
  exact absurd h.ready_nodup (by simp [ringAG, ringAGChain, RunnerState.readyNodes, forNodes])

end Builders

/-! ## All builders -/

/-- The five builders of collective DAGs. -/
inductive Builder where
  | ringAG
  | ringAR
  | slicedAR
  | ringRS
  | treeRed
deriving DecidableEq, Repr

def Builder.init (builder : Builder) (comm : Comm) (b : Buffers) (cfg : Config) (root : Nat) : Except Result RunnerState :=
  match builder with
  | .ringAG => initUniRunnerStateRingAG comm b cfg.uniRunnerNSlices
  | .ringAR => initUniRunnerStateRingAR comm b cfg.uniRunnerNSlices
  | .slicedAR => initUniRunnerStateSlicedAR comm b cfg
  | .ringRS => initUniRunnerStateRingRS comm b cfg
  | .treeRed => initUniRunnerStateTreeRed comm b cfg root

theorem withRanks_ok {comm : Comm} {b : Buffers} {st : RunnerState} (hn : 2 ≤ comm.nranks) :
    withRanks comm b st = .ok st := by
  rw [withRanks, if_neg (by omega), if_neg (by omega)]

end FlagCX.UniRunner
