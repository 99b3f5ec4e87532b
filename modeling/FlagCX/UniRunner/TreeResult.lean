import FlagCX.UniRunner.TreeReduce

/-!
# The tree Reduce: results

* `TreeReduce.EdgesMatch`, `TreeReduce.IsTree` : sends and receives of the DAGs, slice by slice, and the tree they form.
* `treeReduce_correct_iff` : exactly the sizes for which all this and the result hold.
-/

namespace FlagCX.UniRunner
open List

open Dag

/-! ## Operations and footprints -/

def NodeData.p2pOps : NodeData → List P2pOpData
  | .p2p ops => ops
  | _ => []

def transfers (dag : List DagNode) : List P2pOpData := dag.flatMap fun node => node.nodeData.p2pOps

def transfersWith (dag : List DagNode) (type : DevicePrim) (peer : Nat) : List P2pOpData :=
  (transfers dag).filter fun o => o.type = type ∧ o.peerRank = peer

/-- The regions operation `k` of a node reads. -/
def NodeData.reads : NodeData → Nat → List (Nat × Nat)
  | .p2p ops, k =>
    match ops[k]? with
    | some ⟨.send, _, addr, count⟩ => [(addr, count)]
    | _ => []
  | .red d, _ => [(d.input1, triggerCount d.count), (d.input2, triggerCount d.count)]
  | .cpy d, _ => [(d.src, d.count)]

/-- The regions operation `k` of a node writes. -/
def NodeData.writes : NodeData → Nat → List (Nat × Nat)
  | .p2p ops, k =>
    match ops[k]? with
    | some ⟨.recv, _, addr, count⟩ => [(addr, count)]
    | _ => []
  | .red d, _ => [(d.output, triggerCount d.count)]
  | .cpy d, _ => [(d.dst, d.count)]

def Touches (regions : List (Nat × Nat)) (a : Nat) : Prop := ∃ g ∈ regions, g.1 ≤ a ∧ a < g.1 + g.2

theorem touches_singleton {addr count a : Nat} : Touches [(addr, count)] a ↔ addr ≤ a ∧ a < addr + count := by
  simp [Touches]

theorem touches_pair {addr addr' count count' a : Nat} : Touches [(addr, count), (addr', count')] a ↔
    (addr ≤ a ∧ a < addr + count) ∨ addr' ≤ a ∧ a < addr' + count' := by
  simp [Touches]

theorem Wired.transfers_eq {P : Pipeline} {D : Slot → NodeData} {dag : List DagNode} (h : Wired P D dag) :
    transfers dag = P.slots.flatMap fun c => (D c).p2pOps := by
  obtain ⟨es, rfl, hm⟩ := h.nodes
  have hdata : (es.map (·.node)).map (·.nodeData) = P.slots.map D := by
    rw [map_map, ← forall₂_eq_eq_eq, forall₂_map_left_iff, forall₂_map_right_iff]
    exact hm.imp fun _ _ hc => hc.2
  calc transfers (es.map (·.node)) = ((es.map (·.node)).map (·.nodeData)).flatMap NodeData.p2pOps := by
        simp only [transfers, flatMap_map]
    _ = P.slots.flatMap fun c => (D c).p2pOps := by rw [hdata, flatMap_map]

theorem flatMap_range_eq {β : Type} {f : Nat → List β} {n i : Nat} (hi : i < n) (h : ∀ j < n, j ≠ i → f j = []) :
    (range n).flatMap f = f i := by
  induction n with
  | zero => omega
  | succ n ih =>
    rw [Pipeline.flatMap_range_succ]
    by_cases hn : i = n
    · subst hn
      have hnil : (range i).flatMap f = [] :=
        flatMap_eq_nil_iff.2 fun j hj => h j (by have := mem_range.1 hj; omega) (by
          have := mem_range.1 hj
          omega)
      rw [hnil, nil_append]
    · rw [ih (by omega) fun j hj => h j (by omega), h n (by omega) (by omega), append_nil]

namespace TreeReduce

variable {α : Type} {A : TreeReduce α} {r s i j k m p : Nat} {w : World α}

/-! ## The edges -/

theorem transfersWith_eq (A : TreeReduce α) (r : Nat) (type : DevicePrim) (peer : Nat) :
    transfersWith (A.dag r) type peer = (range A.slices).flatMap fun s =>
      (range (A.chain r).steps).flatMap fun i =>
        (A.ops r (.p2p s i)).p2pOps.filter fun o => o.type = type ∧ o.peerRank = peer := by
  rw [transfersWith, (A.wired r).transfers_eq, Pipeline.slots, flatMap_assoc, filter_flatMap]
  refine flatMap_congr fun s _ => ?_
  rw [Pipeline.sliceSlots, flatMap_assoc, filter_flatMap]
  refine flatMap_congr fun i _ => ?_
  rw [Pipeline.stepSlots, flatMap_cons, flatMap_map]
  have hnone : ((range ((A.chain r).reds i)).flatMap fun m => (A.ops r (.red s i m)).p2pOps) = [] :=
    flatMap_eq_nil_iff.2 fun _ _ => rfl
  rw [hnone, append_nil]

theorem chain_steps (hr : r < A.nranks) : (A.chain r).steps = A.recvs r + if r = A.root then 0 else 1 := by
  have hroot := algo_eq_zero_iff (A := A) hr
  show A.recvs r + (if A.algo r ≠ 0 then 1 else 0) = _
  split_ifs <;> omega

def sendOp (A : TreeReduce α) (r s : Nat) : P2pOpData :=
  ⟨.send, A.parent r, (if A.recvs r = 0 then A.sendbuff r else A.scratchbuff r) + A.cell s 0, A.cnt s⟩

/-- The receive of a slice at a step. -/
def recvOp (A : TreeReduce α) (r s i : Nat) : P2pOpData :=
  ⟨.recv, A.child r i, A.scratchbuff r + A.count + A.cell s 0, A.cnt s⟩

theorem flatMap_ite_singleton {β : Type} {P : Prop} [Decidable P] (f : Nat → β) (n : Nat) :
    ((range n).flatMap fun s => if P then [f s] else []) = if P then (range n).map f else [] := by
  split_ifs with h
  · exact (map_eq_flatMap ..).symm
  · exact flatMap_eq_nil_iff.2 fun _ _ => rfl

/-- **The sends of a rank**: one a slice, to its parent. -/
theorem sends_eq (hp : p < A.nranks) : transfersWith (A.dag p) .send r =
    if p ≠ A.root ∧ A.parent p = r then (range A.slices).map (A.sendOp p) else [] := by
  rw [transfersWith_eq, ← flatMap_ite_singleton]
  refine flatMap_congr fun s _ => ?_
  have hrecv : ∀ i < A.recvs p,
      (A.ops p (.p2p s i)).p2pOps.filter (fun o => o.type = DevicePrim.send ∧ o.peerRank = r) = [] := by
    intro i hi
    rw [ops_recv hi]
    rfl
  rw [chain_steps hp]
  split_ifs with hroot hsend hsend
  · exact absurd hroot hsend.1
  · exact flatMap_eq_nil_iff.2 fun i hi => hrecv i (by simpa using hi)
  · rw [flatMap_range_eq (Nat.lt_succ_self _) fun i hi hne => hrecv i (by omega), ops_send]
    exact filter_cons_of_pos (by simpa using hsend.2)
  · rw [flatMap_range_eq (Nat.lt_succ_self _) fun i hi hne => hrecv i (by omega), ops_send]
    refine filter_cons_of_neg ?_
    simpa using fun h => hsend ⟨hroot, h⟩

/-- **The receives of a rank**: one a slice from each child. -/
theorem recvs_eq (hr : r < A.nranks) (hp : p < A.nranks) : transfersWith (A.dag r) .recv p =
    if p ≠ A.root ∧ A.parent p = r then (range A.slices).map (A.recvOp r · (ctz (A.algo p))) else [] := by
  rw [transfersWith_eq, ← flatMap_ite_singleton]
  refine flatMap_congr fun s _ => ?_
  -- a step whose receive is from another rank, or that sends
  have hother : ∀ i < (A.chain r).steps, ¬ (i < A.recvs r ∧ A.child r i = p) →
      (A.ops r (.p2p s i)).p2pOps.filter (fun o => o.type = DevicePrim.recv ∧ o.peerRank = p) = [] := by
    intro i hi hno
    by_cases hlt : i < A.recvs r
    · rw [ops_recv hlt]
      refine filter_cons_of_neg ?_
      simpa using fun h => hno ⟨hlt, h⟩
    · obtain rfl : i = A.recvs r := by
        rw [chain_steps hr] at hi
        split_ifs at hi <;> omega
      rw [ops_send]
      rfl
  have hsteps := chain_steps (A := A) hr
  split_ifs with hchild
  · obtain ⟨hi, he⟩ := (child_eq_iff hr hp).2 ⟨hchild.1, hchild.2, rfl⟩
    rw [flatMap_range_eq (i := ctz (A.algo p)) (by omega), ops_recv hi]
    · exact filter_cons_of_pos (by simpa using he)
    · intro i hi' hne
      exact hother i hi' fun h => hne ((child_eq_iff hr hp).1 h).2.2
  · refine flatMap_eq_nil_iff.2 fun i hi => hother i (by simpa using hi) fun h => hchild ?_
    obtain ⟨h1, h2, -⟩ := (child_eq_iff hr hp).1 h
    exact ⟨h1, h2⟩

variable (A)

/-- Sends and receives between two ranks are for the same slices, in the same order. -/
def EdgesMatch : Prop := ∀ p < A.nranks, ∀ r < A.nranks, ∃ (slices : List Nat) (base base' : Nat),
  (slices = [] ∨ slices = range A.slices) ∧
  transfersWith (A.dag p) .send r = slices.map (fun s => ⟨.send, r, base + A.cell s 0, A.cnt s⟩) ∧
  transfersWith (A.dag r) .recv p = slices.map (fun s => ⟨.recv, p, base' + A.cell s 0, A.cnt s⟩)

/-- Rank `p` sends to rank `r`. -/
def SendsTo (p r : Nat) : Prop := transfersWith (A.dag p) .send r ≠ []

/-- Every rank but the root sends to one rank, the root to none, and following the sends leads to the root. -/
def IsTree : Prop :=
  (∀ p < A.nranks, p ≠ A.root → ∃! r, r < A.nranks ∧ A.SendsTo p r) ∧ (∀ r, ¬ A.SendsTo A.root r) ∧
  ∀ p < A.nranks, Relation.ReflTransGen (fun p r => r < A.nranks ∧ A.SendsTo p r) p A.root

variable {A}

theorem edgesMatch (A : TreeReduce α) : A.EdgesMatch := by
  intro p hp r hr
  by_cases hparent : p ≠ A.root ∧ A.parent p = r
  · refine ⟨range A.slices, if A.recvs p = 0 then A.sendbuff p else A.scratchbuff p, A.scratchbuff r + A.count,
      .inr rfl, ?_, ?_⟩
    · rw [sends_eq hp, if_pos hparent]
      refine map_congr_left fun s _ => ?_
      rw [sendOp, hparent.2]
    · rw [recvs_eq hr hp, if_pos hparent]
      refine map_congr_left fun s _ => ?_
      rw [recvOp, ((child_eq_iff hr hp).2 ⟨hparent.1, hparent.2, rfl⟩).2]
  · refine ⟨[], 0, 0, .inl rfl, ?_, ?_⟩
    · rw [sends_eq hp, if_neg hparent]
      rfl
    · rw [recvs_eq hr hp, if_neg hparent]
      rfl

theorem sendsTo_iff (hS : 0 < A.slices) (hp : p < A.nranks) : A.SendsTo p r ↔ p ≠ A.root ∧ A.parent p = r := by
  rw [SendsTo, sends_eq hp]
  split_ifs with h
  · refine iff_of_true ?_ h
    simp only [ne_eq, map_eq_nil_iff, range_eq_nil]
    omega
  · exact iff_of_false (fun hno => hno rfl) h

theorem isTree (hS : 0 < A.slices) : A.IsTree := by
  refine ⟨fun p hp hne => ⟨A.parent p, ⟨A.parent_lt p, (sendsTo_iff hS hp).2 ⟨hne, rfl⟩⟩, ?_⟩, ?_, ?_⟩
  · rintro r ⟨-, hr⟩
    exact ((sendsTo_iff hS hp).1 hr).2.symm
  · intro r hr
    exact ((sendsTo_iff hS A.root_lt).1 hr).1 rfl
  · intro p hp
    -- parents are nearer to the root
    induction ha : A.algo p using Nat.strong_induction_on generalizing p with
    | _ a ih =>
      by_cases hne : p = A.root
      · rw [hne]
      · have hpos : 0 < A.algo p := pos_of_ne_zero fun h => hne ((algo_eq_zero_iff hp).1 h)
        have hless : A.algo (A.parent p) < a := by
          rw [algo_parent hp hne, ← ha]
          exact Nat.sub_lt hpos (Nat.two_pow_pos _)
        exact .head ⟨A.parent_lt p, (sendsTo_iff hS hp).2 ⟨hne, rfl⟩⟩ (ih _ hless _ (A.parent_lt p) rfl)

theorem not_isTree_of_no_slices (hS : A.slices = 0) : ¬ A.IsTree := by
  intro h
  have hn := A.two_le
  obtain ⟨p, hp, hne⟩ : ∃ p < A.nranks, p ≠ A.root := by
    by_cases h0 : A.root = 0
    · exact ⟨1, by omega, by omega⟩
    · exact ⟨0, by omega, fun h => h0 h.symm⟩
  obtain ⟨r, ⟨-, hr⟩, -⟩ := h.1 p hp hne
  apply hr
  rw [sends_eq hp, hS]
  split_ifs <;> rfl

/-! ## Scratch cells -/

variable (A)

/-- The rank performs an operation of a node whose parents are done. -/
structure Performs (w : World α) (r u k : Nat) (node : DagNode) : Prop where
  node_eq : (A.dag r)[u]? = some node
  ready : Ready A.dag w r u
  fresh : w.fired r u k = false

def Written (w : World α) (r a : Nat) : Prop := ∃ u k node, (A.dag r)[u]? = some node ∧ w.fired r u k = true ∧
  Touches (node.nodeData.writes k) a

/-- Whatever a rank reads from its scratch buffer has been written before. -/
def NoEarlyRead : Prop := ∀ w, Run A.nranks A.dag A.op (World.start A.init) w → ∀ r < A.nranks, ∀ u k node,
  A.Performs w r u k node → ∀ a, Touches (node.nodeData.reads k) a →
  A.scratchbuff r ≤ a → a < A.scratchbuff r + 2 * A.count → A.Written w r a

/-- An address that was received is written again only after a reduction that waits for the receive has read it. -/
def NoOverwrite : Prop := ∀ w, Run A.nranks A.dag A.op (World.start A.init) w → ∀ r < A.nranks, ∀ u k node,
  A.Performs w r u k node → ∀ a, Touches (node.nodeData.writes k) a →
  ∀ u' k' node' ops peer addr count, (A.dag r)[u']? = some node' → w.fired r u' k' = true → node'.nodeData = .p2p ops →
  ops[k']? = some ⟨.recv, peer, addr, count⟩ → addr ≤ a → a < addr + count →
  ∃ v nodev d, (A.dag r)[v]? = some nodev ∧ Edge ((A.dag r).map (·.children)) u' v ∧ nodev.nodeData = .red d ∧
    w.fired r v 0 = true ∧ d.input1 ≤ a ∧ a < d.input1 + triggerCount d.count

variable {A}

theorem exists_piece {base a : Nat} (h1 : base + A.cell s 0 ≤ a) (h2 : a < base + A.cell s 0 + A.cnt s) :
    ∃ m < A.redSlices, ∃ j < partCount (A.cnt s) A.redSlices m,
      a = base + A.cell s (partOffset (A.cnt s) A.redSlices m + j) := by
  obtain ⟨m, hm, j, hj, he⟩ := exists_part A.redSlices_pos (show a - (base + A.cell s 0) < A.cnt s by omega)
  refine ⟨m, hm, j, hj, ?_⟩
  have hcell : A.cell s (partOffset (A.cnt s) A.redSlices m + j) =
      A.cell s 0 + (partOffset (A.cnt s) A.redSlices m + j) := by
    unfold cell
    omega
  rw [hcell, ← he]
  omega

theorem exists_elem_of_piece {base a c : Nat} (hc : c ≤ partCount (A.cnt s) A.redSlices m)
    (h1 : base + A.cell s (partOffset (A.cnt s) A.redSlices m) ≤ a)
    (h2 : a < base + A.cell s (partOffset (A.cnt s) A.redSlices m) + c) :
    ∃ j < partCount (A.cnt s) A.redSlices m, a = base + A.cell s (partOffset (A.cnt s) A.redSlices m + j) := by
  refine ⟨a - (base + A.cell s (partOffset (A.cnt s) A.redSlices m)), by omega, ?_⟩
  unfold cell at h1 ⊢
  omega

section Cells

variable (hsmall : ∀ s < A.slices, ∀ m < A.redSlices, partCount (A.cnt s) A.redSlices m < 2 ^ 32)
include hsmall

theorem trigger_eq (hs : s < A.slices) (hm : m < A.redSlices) :
    triggerCount (partCount (A.cnt s) A.redSlices m) = partCount (A.cnt s) A.redSlices m :=
  Nat.mod_eq_of_lt (hsmall s hs m hm)

theorem written_of_red (hs : s < A.slices) (hi : i < A.recvs r) (hm : m < A.redSlices)
    (hlast : i ≠ A.steps - 1) (hfired : w.fired r ((A.chain r).idx (.red s i m)) 0 = true)
    (hj : j < partCount (A.cnt s) A.redSlices m) :
    A.Written w r (A.scratchbuff r + A.cell s (partOffset (A.cnt s) A.redSlices m + j)) := by
  obtain ⟨node, hnode, hdata⟩ := (A.wired r).node_of_slot (red_slot.2 ⟨hs, hi, hm⟩)
  refine ⟨_, 0, node, hnode, hfired, ?_⟩
  rw [hdata]
  show Touches [((if i = A.steps - 1 then A.recvbuff r else A.scratchbuff r) + _, triggerCount _)] _
  rw [if_neg hlast, touches_singleton, trigger_eq hsmall hs hm]
  unfold cell
  omega

omit hsmall in
theorem written_of_recv (hr : r < A.nranks) (hs : s < A.slices) (hi : i < A.recvs r)
    (hfired : w.fired r ((A.chain r).idx (.p2p s i)) 0 = true) (hk : k < A.cnt s) :
    A.Written w r (A.scratchbuff r + A.count + A.cell s k) := by
  obtain ⟨node, hnode, hdata⟩ := (A.wired r).node_of_slot ((p2p_slot hr).2 ⟨hs, .inl hi⟩)
  refine ⟨_, 0, node, hnode, hfired, ?_⟩
  rw [hdata, ops_recv hi]
  show Touches [(_, _)] _
  rw [touches_singleton]
  unfold cell
  omega

theorem noEarlyRead : A.NoEarlyRead := by
  rintro w hw r hr u k node ⟨hnode, hready, hfresh⟩ a htouch hlo hhi
  have hclosed := closed_of_run hw hr
  have hready' : LocalReady (A.dag r) (w.fired r) u := hready
  have hapart := A.scratch_apart r hr
  obtain ⟨c, hc, rfl, hdata⟩ := (A.wired r).slot_of_node hnode
  rw [hdata] at htouch
  -- reads of `sendbuff` are not in the scratch buffer
  have hsend : ∀ s < A.slices, ∀ k < A.cnt s, a ≠ A.sendbuff r + A.cell s k := by
    rintro s hs k hk rfl
    have := cell_lt hs hk
    omega
  -- the running result after the reductions of step `i`
  have hrunning : ∀ s < A.slices, ∀ i, i < A.recvs r → i ≠ A.steps - 1 → ∀ m < A.redSlices,
      w.fired r ((A.chain r).idx (.red s i m)) 0 = true → ∀ j < partCount (A.cnt s) A.redSlices m,
      A.Written w r (A.scratchbuff r + A.cell s (partOffset (A.cnt s) A.redSlices m + j)) :=
    fun s hs i hi hlast m hm hfired j hj => written_of_red hsmall hs hi hm hlast hfired hj
  cases c with
  | p2p s i =>
    obtain ⟨hs, hi | ⟨rfl, hne⟩⟩ := (p2p_slot hr).1 hc
    · rw [ops_recv hi] at htouch
      match k, htouch with
      | 0, ⟨_, hmem, _⟩ => cases hmem
      | k + 1, ⟨_, hmem, _⟩ => cases hmem
    · rw [ops_send] at htouch
      match k, htouch with
      | 0, htouch =>
        obtain ⟨h1, h2⟩ := touches_singleton.1 htouch
        obtain ⟨m, hm, j, hj, rfl⟩ := exists_piece h1 h2
        split_ifs at hsend hrunning hlo hhi ⊢ with h0
        · exact absurd rfl (hsend s hs _ (part_lt hm hj))
        · have hlt := recvs_lt hr hne
          exact hrunning s hs (A.recvs r - 1) (by omega) (by omega) m hm
            (red_before hclosed hc hready' (show A.recvs r - 1 < A.recvs r by omega) (by omega) hm) j hj
      | k + 1, ⟨_, hmem, _⟩ => cases hmem
  | red s i m =>
    obtain ⟨hs, hi, hm⟩ := red_slot.1 hc
    have hp2p := p2p_before_red hs hi hm hready'
    have hle := triggerCount_le_self (partCount (A.cnt s) A.redSlices m)
    rcases touches_pair.1 htouch with ⟨h1, h2⟩ | ⟨h1, h2⟩
    · obtain ⟨j, hj, rfl⟩ := exists_elem_of_piece hle h1 h2
      exact written_of_recv hr hs hi hp2p (part_lt hm hj)
    · obtain ⟨j, hj, rfl⟩ := exists_elem_of_piece hle h1 h2
      split_ifs at hsend hrunning hlo hhi ⊢ with h0
      · exact absurd rfl (hsend s hs _ (part_lt hm hj))
      · have hlt : i < A.steps := by
          by_cases hroot : r = A.root
          · rw [hroot, recvs_root] at hi
            exact hi
          · exact hi.trans (recvs_lt hr hroot)
        exact hrunning s hs (i - 1) (by omega) (by omega) m hm
          (red_before hclosed ((p2p_slot hr).2 ⟨hs, .inl hi⟩) (hclosed _ _ hp2p)
            (show i - 1 < i by omega) (by omega) hm) j hj

theorem noOverwrite : A.NoOverwrite := by
  rintro w hw r hr u k node ⟨hnode, hready, hfresh⟩ a htouch u' k' node' ops peer addr count hnode' hfired' hops hop hlo hhi
  have hclosed := closed_of_run hw hr
  have hready' : LocalReady (A.dag r) (w.fired r) u := hready
  obtain ⟨c, hc, rfl, hdata⟩ := (A.wired r).slot_of_node hnode
  obtain ⟨c', hc', rfl, hdata'⟩ := (A.wired r).slot_of_node hnode'
  -- the element that was received
  rw [hdata'] at hops
  obtain ⟨s', i', hs', hi', rfl, rfl, hlo', hhi'⟩ : ∃ s' i', s' < A.slices ∧ i' < A.recvs r ∧ c' = .p2p s' i' ∧ k' = 0 ∧
      A.scratchbuff r + A.count + A.cell s' 0 ≤ a ∧ a < A.scratchbuff r + A.count + A.cell s' 0 + A.cnt s' := by
    cases c' with
    | red s i m => cases hops
    | p2p s' i' =>
      obtain ⟨hs', hi' | ⟨rfl, -⟩⟩ := (p2p_slot hr).1 hc'
      · rw [ops_recv hi'] at hops
        cases hops
        match k', hop with
        | 0, hop =>
          cases hop
          exact ⟨s', i', hs', hi', rfl, rfl, hlo, hhi⟩
        | k' + 1, hop => cases hop
      · rw [ops_send] at hops
        cases hops
        match k', hop with
        | 0, hop => cases hop
        | k' + 1, hop => cases hop
  obtain ⟨m, hm, j, hj, rfl⟩ := exists_piece hlo' hhi'
  have hk := part_lt hm hj
  have hcell := cell_lt hs' hk
  rw [hdata] at htouch
  -- only a later receive of the same slice writes there
  obtain ⟨i, hi, rfl, rfl⟩ : ∃ i, i < A.recvs r ∧ c = .p2p s' i ∧ k = 0 := by
    cases c with
    | red s i m' =>
      obtain ⟨hs, hi, hm'⟩ := red_slot.1 hc
      obtain ⟨h1, h2⟩ := touches_singleton.1 htouch
      obtain ⟨j', hj', he⟩ := exists_elem_of_piece (triggerCount_le_self _) h1 h2
      have hcell' := cell_lt hs (part_lt hm' hj')
      split_ifs at he with hlast
      · have hroot := eq_root_of_last hr hi hlast
        subst hroot
        have hrapart := A.recv_apart
        omega
      · omega
    | p2p s i =>
      obtain ⟨hs, hi | ⟨rfl, -⟩⟩ := (p2p_slot hr).1 hc
      · rw [ops_recv hi] at htouch
        match k, htouch with
        | 0, htouch =>
          obtain ⟨h1, h2⟩ := touches_singleton.1 htouch
          obtain ⟨m₂, hm₂, j₂, hj₂, he⟩ := exists_piece h1 h2
          obtain ⟨rfl, -⟩ := cell_inj hk (part_lt hm₂ hj₂) (by omega)
          exact ⟨i, hi, rfl, rfl⟩
        | k + 1, ⟨_, hmem, _⟩ => cases hmem
      · rw [ops_send] at htouch
        match k, htouch with
        | 0, ⟨_, hmem, _⟩ => cases hmem
        | k + 1, ⟨_, hmem, _⟩ => cases hmem
  have hlt : i' < i := by
    rcases lt_trichotomy i' i with hlt | rfl | hgt
    · exact hlt
    · rw [hfresh] at hfired'
      cases hfired'
    · rw [p2p_before hclosed hc' (hclosed _ _ hfired') hs' (.inl hgt)] at hfresh
      cases hfresh
  have hslot : Slot.red s' i' m ∈ (A.chain r).slots := red_slot.2 ⟨hs', hi', hm⟩
  obtain ⟨nodev, hnodev, hdatav⟩ := (A.wired r).node_of_slot hslot
  refine ⟨_, nodev, _, hnodev, ((A.wired r).edge_iff hslot).2 ⟨.p2p s' i', mem_singleton_self _, rfl⟩, hdatav,
    red_before hclosed hc hready' hlt hi' hm, ?_⟩
  rw [trigger_eq hsmall hs' hm]
  dsimp only
  unfold cell
  omega

end Cells

/-! ## The result -/

variable (A)

/-- Every complete run leaves in the root's `recvbuff` the reduction of all contributions. -/
def Reduces : Prop := ∀ w, A.Ends w → ∀ e < A.count,
  w.mem A.root (A.recvbuff A.root + e) = foldRanks A.op (fun q => A.init q (A.sendbuff q + e)) (A.nranks - 1)

/-- The edges agree and form a tree, the ranks can always finish, the result is the reduction, and the scratch buffers are
used in order. -/
structure Correct : Prop where
  edges : A.EdgesMatch
  tree : A.IsTree
  finish : ∀ w, Run A.nranks A.dag A.op (World.start A.init) w →
    ∃ w', Run A.nranks A.dag A.op w w' ∧ Complete A.nranks A.dag w'
  reduces : A.Reduces
  noEarlyRead : A.NoEarlyRead
  noOverwrite : A.NoOverwrite

variable {A}

theorem reduces_of_small (ha : Std.Associative A.op) (hcomm : Std.Commutative A.op) (hS : 0 < A.slices)
    (hsmall : ∀ s < A.slices, ∀ m < A.redSlices, partCount (A.cnt s) A.redSlices m < 2 ^ 32) : A.Reduces := by
  intro w hw e he
  have hn := A.two_le
  obtain ⟨s, hs, k, hk, rfl⟩ := exists_elem hS he
  have htrigger : Triggered (A.cnt s) A.redSlices k := by
    obtain ⟨m, hm, j, hj, rfl⟩ := exists_part A.redSlices_pos hk
    rw [triggered_part hm hj, trigger_eq hsmall hs hm]
    exact hj
  have hsteps : A.nranks ≤ 2 ^ A.steps := by
    have := Nat.lt_size_self (A.nranks - 1)
    show A.nranks ≤ 2 ^ (A.nranks - 1).size
    omega
  rw [hw.value hs hk, if_pos htrigger, acc_eq_collect htrigger, collect_root ha hcomm _ (by omega) hsteps]
  have hrotate := foldRanks_rotate ha hcomm (fun q => A.init q (A.sendbuff q + A.cell s k))
    (show 0 < A.nranks by omega) A.root
  rw [← hrotate]
  refine foldRanks_congr fun q _ => ?_
  have hrank : A.rank q = (A.root + q) % A.nranks := congrArg (· % A.nranks) (add_comm q A.root)
  rw [hrank]

end TreeReduce

theorem inPlace_or_behind (inPlace : Bool) (count : Nat) : (if inPlace then 0 else count) = 0 ∨
    (if inPlace then 0 else count) + count ≤ 0 ∨ 0 + count ≤ if inPlace then 0 else count := by
  split_ifs <;> omega

/-- Rank memories with `send` in `sendbuff` (address 0) and zeros elsewhere; `recvbuff` stands behind `sendbuff`, or is
`sendbuff` itself. -/
def sumTreeReduce (n root count S R : Nat) (inPlace : Bool) (send : Nat → Nat → Nat) (hn : 2 ≤ n) (hroot : root < n)
    (hR : 0 < R) : TreeReduce Nat where
  nranks := n
  count := count
  cfg := ⟨S, R, 0, 0⟩
  root := root
  sendbuff _ := 0
  recvbuff _ := if inPlace then 0 else count
  scratchbuff _ := 2 * count
  op := (· + ·)
  init r a := if a < count then send r a else 0
  two_le := hn
  root_lt := hroot
  redSlices_pos := Config.numRedSlices_pos S R count hR
  scratch_apart r hr := by omega
  recv_apart := by split_ifs <;> omega
  placed := inPlace_or_behind inPlace count

theorem sumTreeReduce_redSlices {n root count S R : Nat} {inPlace : Bool} {send : Nat → Nat → Nat} (hn : 2 ≤ n)
    (hroot : root < n) (hR : 0 < R) : (sumTreeReduce n root count S R inPlace send hn hroot hR).redSlices = R :=
  if_neg (pos_iff_ne_zero.1 hR)

end FlagCX.UniRunner
