import FlagCX.UniRunner.Local
import FlagCX.UniRunner.WellFormed

/-!
# Ranks that run a pipelined chain

What a rank knows of the slots of its pipeline while it runs them in any order that respects the edges.

* `Wired`       : the nodes of a DAG are the slots of a pipeline.
* `Wired.done_of_pos_lt`, `Wired.red_done` : what is done before a transfer.
* `RingCounts`  : the performed operations of transfers with one send and one receive, in terms of the counters.
-/

namespace FlagCX.UniRunner
open List Function

open Dag

/-- The nodes of the DAG are the slots of a pipeline, with their operations. -/
structure Wired (P : Pipeline) (D : Slot → NodeData) (dag : List DagNode) : Prop where
  nodes : ∃ es : List Emitted, dag = es.map (·.node) ∧ List.Forall₂ (Carries P D) es P.slots
  numOps_pos : ∀ c, 0 < (D c).numOps

variable {c : Slot}

namespace Wired

variable {P : Pipeline} {D : Slot → NodeData} {dag : List DagNode} {f : Nat → Nat → Bool}

theorem of_nodes {es : List Emitted} {D' : Slot → NodeData} (hm : List.Forall₂ (Carries P D') es P.slots)
    (hD : ∀ c ∈ P.slots, D' c = D c) (hpos : ∀ c, 0 < (D c).numOps) : Wired P D (es.map (·.node)) := by
  refine ⟨⟨es, rfl, ?_⟩, hpos⟩
  rw [forall₂_iff_get] at hm ⊢
  refine ⟨hm.1, fun i h₁ h₂ => ⟨(hm.2 i h₁ h₂).1, ?_⟩⟩
  rw [(hm.2 i h₁ h₂).2]
  exact hD _ (get_mem _ _)

section

variable (h : Wired P D dag)
include h

theorem slot_of_node {u : Nat} {node : DagNode} (hu : dag[u]? = some node) :
    ∃ c ∈ P.slots, u = P.idx c ∧ node.nodeData = D c := by
  obtain ⟨es, rfl, hm⟩ := h.nodes
  rw [getElem?_map, Option.map_eq_some_iff] at hu
  obtain ⟨e, he, rfl⟩ := hu
  obtain ⟨hlt, rfl⟩ := List.getElem?_eq_some_iff.1 he
  have hlt' : u < P.slots.length := hm.length_eq ▸ hlt
  refine ⟨P.slots[u], getElem_mem hlt', ?_, (hm.get hlt hlt').2⟩
  exact (P.numbering.idx_of_getElem? (by simp [hlt'])).symm

theorem length_eq : dag.length = P.slots.length := by
  obtain ⟨es, rfl, hm⟩ := h.nodes
  rw [length_map, hm.length_eq]

section

variable (hc : c ∈ P.slots)
include hc

theorem node_of_slot : ∃ node, dag[P.idx c]? = some node ∧ node.nodeData = D c := by
  have hlt : P.idx c < dag.length := by
    rw [h.length_eq]
    exact P.numbering.idx_lt hc
  obtain ⟨c', hc', hidx, hdata⟩ := h.slot_of_node (getElem?_eq_getElem hlt)
  obtain rfl := P.numbering.idx_inj hc hc' hidx
  exact ⟨_, getElem?_eq_getElem hlt, hdata⟩

theorem edge_iff {u : Nat} : Edge (dag.map (·.children)) u (P.idx c) ↔ ∃ p ∈ P.parents c, P.idx p = u := by
  obtain ⟨es, rfl, hm⟩ := h.nodes
  have hl : P.wiring.Lists ((es.map (·.node)).map (·.children)) := by
    have := matches_lists (hm.imp fun _ _ h => h.1)
    rwa [map_map]
  exact hl.edge_iff hc

theorem ready_iff : LocalReady dag f (P.idx c) ↔ ∀ p ∈ P.parents c, LocalDone dag f (P.idx p) := by
  constructor
  · intro hready p hp
    exact hready _ ((h.edge_iff hc).2 ⟨p, hp, rfl⟩)
  · intro hall v hv
    obtain ⟨p, hp, rfl⟩ := (h.edge_iff hc).1 hv
    exact hall p hp

theorem done_iff : LocalDone dag f (P.idx c) ↔ ∀ k < (D c).numOps, f (P.idx c) k = true := by
  obtain ⟨node, hnode, hdata⟩ := h.node_of_slot hc
  constructor
  · rintro ⟨node', hnode', hf⟩
    obtain rfl := Option.some.inj (hnode.symm.trans hnode')
    rwa [hdata] at hf
  · intro hf
    exact ⟨node, hnode, by rwa [hdata]⟩

end

theorem ready_of_done (hc : Closed dag f) (hs : c ∈ P.slots) (hdone : LocalDone dag f (P.idx c)) : LocalReady dag f (P.idx c) :=
  hc _ _ ((h.done_iff hs).1 hdone 0 (h.numOps_pos c))

end

end Wired

/-! ## The chain of transfers -/

namespace Pos

variable {P : Pipeline} {s i s' i' : Nat}

/-- The place of the transfer of step `i`, slice `s` in the chain. -/
def of (P : Pipeline) (s i : Nat) : Nat := i * P.slices + s

theorem lt_of_step_lt (hs : s < P.slices) (h : i < i') : of P s i < of P s' i' := by
  have hle : (i + 1) * P.slices ≤ i' * P.slices := Nat.mul_le_mul_right _ h
  rw [Nat.succ_mul] at hle
  unfold of
  omega

theorem inj (hs : s < P.slices) (hs' : s' < P.slices) (h : of P s i = of P s' i') : s = s' ∧ i = i' := by
  rcases lt_trichotomy i i' with hi | rfl | hi
  · exact absurd h (lt_of_step_lt hs hi).ne
  · unfold of at h
    exact ⟨by omega, rfl⟩
  · exact absurd h (lt_of_step_lt hs' hi).ne'

theorem mem_prev (hs : s < P.slices) (h : of P s i ≠ 0) : ∃ s' i', s' < P.slices ∧ i' ≤ i ∧
    .p2p s' i' ∈ P.prev s i ∧ of P s' i' + 1 = of P s i := by
  unfold Pipeline.prev
  by_cases hs0 : 0 < s
  · refine ⟨s - 1, i, by omega, le_rfl, ?_, ?_⟩
    · rw [if_pos hs0]
      exact mem_singleton_self _
    · unfold of
      omega
  · have hi0 : 0 < i := by
      by_contra hi0
      obtain rfl : i = 0 := by omega
      obtain rfl : s = 0 := by omega
      exact h (by simp [of])
    refine ⟨P.slices - 1, i - 1, by omega, by omega, ?_, ?_⟩
    · rw [if_neg hs0, if_pos hi0]
      exact mem_singleton_self _
    · obtain ⟨k, rfl⟩ : ∃ k, i = k + 1 := ⟨i - 1, by omega⟩
      unfold of
      rw [Nat.add_sub_cancel, Nat.succ_mul]
      omega

end Pos

variable {k : Nat}

namespace Wired

variable {P : Pipeline} {D : Slot → NodeData} {dag : List DagNode} {f : Nat → Nat → Bool} {s i s' i' r : Nat}

section

variable (h : Wired P D dag)
include h

section

variable (hc : Closed dag f) (hs : s < P.slices) (hi : i < P.steps) (hready : LocalReady dag f (P.idx (.p2p s i)))
include hc hs hi hready

theorem done_of_pos_lt (hs' : s' < P.slices) (hlt : Pos.of P s' i' < Pos.of P s i) :
    LocalDone dag f (P.idx (.p2p s' i')) := by
  induction hq : Pos.of P s i using Nat.strong_induction_on generalizing s i with
  | _ q ih =>
    obtain ⟨s₀, i₀, hs₀, hi₀, hmem, hpos⟩ := Pos.mem_prev (i := i) hs (by omega)
    have hslot : Slot.p2p s₀ i₀ ∈ P.slots := P.p2p_mem_slots.2 ⟨hs₀, by omega⟩
    have hprev : LocalDone dag f (P.idx (.p2p s₀ i₀)) :=
      (h.ready_iff (P.p2p_mem_slots.2 ⟨hs, hi⟩)).1 hready _ (mem_append_left _ hmem)
    rcases lt_or_ge (Pos.of P s' i') (Pos.of P s₀ i₀) with hless | hge
    · exact ih _ (by omega) hs₀ (by omega) (h.ready_of_done hc hslot hprev) hless rfl
    · obtain ⟨rfl, rfl⟩ := Pos.inj hs' hs₀ (by omega : Pos.of P s' i' = Pos.of P s₀ i₀)
      exact hprev

theorem red_done (hlt : i' < i) (hr : r < P.reds i') : LocalDone dag f (P.idx (.red s i' r)) := by
  have hnext : LocalReady dag f (P.idx (.p2p s (i' + 1))) := by
    rcases lt_or_ge (i' + 1) i with hless | hge
    · exact h.ready_of_done hc (P.p2p_mem_slots.2 ⟨hs, by omega⟩)
        (h.done_of_pos_lt hc hs hi hready hs (Pos.lt_of_step_lt hs hless))
    · rwa [show i' + 1 = i by omega]
  refine (h.ready_iff (P.p2p_mem_slots.2 ⟨hs, by omega⟩)).1 hnext _ (mem_append_right _ ?_)
  exact P.mem_redsOf.2 ⟨r, hr, rfl⟩

end

theorem p2p_done_of_red (hs : s < P.slices) (hi : i < P.steps) (hr : r < P.reds i)
    (hready : LocalReady dag f (P.idx (.red s i r))) : LocalDone dag f (P.idx (.p2p s i)) :=
  (h.ready_iff (P.red_mem_slots.2 ⟨hs, hi, hr⟩)).1 hready _ (mem_singleton_self _)

section

variable (hc : Closed dag f) (hs : s < P.slices) (hi : i < P.steps) (hready : LocalReady dag f (P.idx (.p2p s i)))
include hc hs hi hready

theorem red_fired (hlt : i' < i) (hr : r < P.reds i') : f (P.idx (.red s i' r)) 0 = true :=
  (h.done_iff (P.red_mem_slots.2 ⟨hs, by omega, hr⟩)).1 (h.red_done hc hs hi hready hlt hr) 0 (h.numOps_pos _)

theorem p2p_fired (hs' : s' < P.slices) (hlt : Pos.of P s' i' < Pos.of P s i) (hi' : i' < P.steps)
    (hk : k < (D (.p2p s' i')).numOps) : f (P.idx (.p2p s' i')) k = true :=
  (h.done_iff (P.p2p_mem_slots.2 ⟨hs', hi'⟩)).1 (h.done_of_pos_lt hc hs hi hready hs' hlt) k hk

end

theorem p2p_fired_of_red (hs : s < P.slices) (hi : i < P.steps) (hr : r < P.reds i)
    (hready : LocalReady dag f (P.idx (.red s i r))) (hk : k < (D (.p2p s i)).numOps) : f (P.idx (.p2p s i)) k = true :=
  (h.done_iff (P.p2p_mem_slots.2 ⟨hs, hi⟩)).1 (h.p2p_done_of_red hs hi hr hready) k hk

theorem red_fired_of_red (hc : Closed dag f) (hs : s < P.slices) (hi : i < P.steps) {r' : Nat} (hr' : r' < P.reds i)
    (hfired : f (P.idx (.red s i r')) 0 = true) (hlt : i' < i) (hr : r < P.reds i') : f (P.idx (.red s i' r)) 0 = true := by
  have hdone := h.p2p_done_of_red hs hi hr' (hc _ _ hfired)
  exact h.red_fired hc hs hi (h.ready_of_done hc (P.p2p_mem_slots.2 ⟨hs, hi⟩) hdone) hlt hr

end

theorem mark_fired {α : Type} {x : RankState α} {c' : Slot} {k' : Nat} (hc : c ∈ P.slots) (hc' : c' ∈ P.slots) :
    (x.mark (P.idx c) k).fired (P.idx c') k' = if c' = c ∧ k' = k then true else x.fired (P.idx c') k' := by
  have hinj : P.idx c' = P.idx c ↔ c' = c := ⟨fun he => P.numbering.idx_inj hc' hc he, fun he => by rw [he]⟩
  exact if_congr (and_congr_left' hinj) rfl rfl

section Marks
variable {α : Type} {x y : RankState α} (hf : y.fired = x.fired)
include hf

theorem mark_other {c' : Slot} (hc : c ∈ P.slots) (hc' : c' ∈ P.slots) (k' : Nat) (hne : ¬ (c' = c ∧ k' = k)) :
    (y.mark (P.idx c) k).fired (P.idx c') k' = x.fired (P.idx c') k' := by
  rw [mark_fired hc hc', if_neg hne, hf]

theorem mark_p2p (hc : .p2p s i ∈ P.slots) (hc' : .p2p s' i' ∈ P.slots) : (y.mark (P.idx (.p2p s i)) k).fired
    (P.idx (.p2p s' i')) k = if s' = s ∧ i' = i then true else x.fired (P.idx (.p2p s' i')) k := by
  rw [mark_fired hc hc', hf]
  exact if_congr (by simp) rfl rfl

theorem mark_red {r' : Nat} (hc : .red s i r ∈ P.slots) (hc' : .red s' i' r' ∈ P.slots) :
    (y.mark (P.idx (.red s i r)) 0).fired (P.idx (.red s' i' r')) 0 =
      if s' = s ∧ i' = i ∧ r' = r then true else x.fired (P.idx (.red s' i' r')) 0 := by
  rw [mark_fired hc hc', hf]
  exact if_congr (by simp) rfl rfl

end Marks

theorem keeps {α : Type} {op : α → α → α} {inbox outbox : Nat → Nat → List α} {L : RankState α → Prop} (h : Wired P D dag)
    (hslot : ∀ x, L x → Closed dag x.fired → ∀ c ∈ P.slots, ∀ k, LocalReady dag x.fired (P.idx c) →
      x.fired (P.idx c) k = false → x.Carries outbox (D c) k ∧
        ∀ x', x.perform op inbox (D c) k = some x' → L (x'.mark (P.idx c) k)) : Keeps dag op inbox outbox L := by
  intro x hx hclosed u k node hnode hready hfresh
  obtain ⟨c, hc, rfl, hdata⟩ := h.slot_of_node hnode
  rw [hdata]
  exact hslot x hx hclosed c hc k hready hfresh

end Wired

/-! ## DAGs with the same slots -/

section

variable {α : Type} {n : Nat} {P : Pipeline} {D : Nat → Slot → NodeData} {dag dag' : Nat → List DagNode} {op : α → α → α}
  {w w' : World α} (hw : ∀ r < n, Wired P (D r) (dag r)) (hw' : ∀ r < n, Wired P (D r) (dag' r))
include hw hw'

theorem Run.of_wired (h : Run n dag op w w') : Run n dag' op w w' := by
  refine Relation.ReflTransGen.mono (fun w₁ w₂ hstep => ?_) _ _ h
  obtain ⟨r, u, k, node, w₃, hr, hnode, hready, hfresh, hperform⟩ := hstep
  obtain ⟨c, hc, rfl, hdata⟩ := (hw r hr).slot_of_node hnode
  obtain ⟨node', hnode', hdata'⟩ := (hw' r hr).node_of_slot hc
  refine .exec r _ k node' w₃ hr hnode' ?_ hfresh (by rwa [hdata', ← hdata])
  refine ((hw' r hr).ready_iff hc).2 fun p hp => ?_
  have hdone := ((hw r hr).ready_iff (f := w₁.fired r) hc).1 hready p hp
  exact ((hw' r hr).done_iff (P.parents_mem hc hp)).2 (((hw r hr).done_iff (P.parents_mem hc hp)).1 hdone)

theorem Complete.of_wired (h : Complete n dag w) : Complete n dag' w := by
  intro r hr u hu
  obtain ⟨c, hc, rfl, -⟩ := (hw' r hr).slot_of_node (getElem?_eq_getElem hu)
  have hdone : LocalDone (dag r) (w.fired r) (P.idx c) := h r hr _ (by
    rw [(hw r hr).length_eq]
    exact P.numbering.idx_lt hc)
  exact ((hw' r hr).done_iff hc).2 (((hw r hr).done_iff hc).1 hdone)

end

theorem Complete.fired {α : Type} {n r : Nat} {P : Pipeline} {D : Slot → NodeData} {dag : Nat → List DagNode} {w : World α}
    (h : Complete n dag w) (hr : r < n) (hw : Wired P D (dag r)) (hc : c ∈ P.slots) (hk : k < (D c).numOps) :
    w.fired r (P.idx c) k = true := by
  obtain ⟨node, hnode, -⟩ := hw.node_of_slot hc
  exact (hw.done_iff hc).1 (h r hr _ (List.getElem?_eq_some_iff.1 hnode).1) k hk

/-! ## Counters of a ring -/

/-- The sends (operation 0) and receives (operation 1) performed are the first ones of the chain. -/
structure RingCounts {α : Type} (P : Pipeline) (next prev : Nat) (x : RankState α) : Prop where
  sent : ∀ s < P.slices, ∀ i < P.steps, x.fired (P.idx (.p2p s i)) 0 = decide (Pos.of P s i < x.sent next)
  recvd : ∀ s < P.slices, ∀ i < P.steps, x.fired (P.idx (.p2p s i)) 1 = decide (Pos.of P s i < x.recvd prev)

namespace RingCounts

variable {α : Type} {P : Pipeline} {D : Slot → NodeData} {dag : List DagNode} {x y : RankState α} {next prev s i r : Nat}

theorem start (P : Pipeline) (next prev : Nat) (m : Nat → α) :
    RingCounts P next prev ⟨fun _ _ => false, m, fun _ => 0, fun _ => 0⟩ := ⟨fun _ _ _ _ => rfl, fun _ _ _ _ => rfl⟩

theorem pos_eq {m : Nat} (hw : Wired P D dag) (hclosed : Closed dag x.fired)
    (hall : ∀ s < P.slices, ∀ i < P.steps, x.fired (P.idx (.p2p s i)) k = decide (Pos.of P s i < m))
    (hk : ∀ s i, k < (D (.p2p s i)).numOps) (hs : s < P.slices) (hi : i < P.steps)
    (hready : LocalReady dag x.fired (P.idx (.p2p s i))) (hfresh : x.fired (P.idx (.p2p s i)) k = false) :
    Pos.of P s i = m := by
  rw [hall s hs i hi, decide_eq_false_iff_not] at hfresh
  by_contra hne
  obtain ⟨s₀, i₀, hs₀, hi₀, -, hpos⟩ := Pos.mem_prev (i := i) hs (show Pos.of P s i ≠ 0 by omega)
  have hprev := hw.p2p_fired hclosed hs hi hready hs₀ (by omega) (show i₀ < P.steps by omega) (hk s₀ i₀)
  rw [hall s₀ hs₀ i₀ (by omega), decide_eq_true_iff] at hprev
  omega

section

variable (h : RingCounts P next prev x) (hw : Wired P D dag) (hclosed : Closed dag x.fired)
  (hk : ∀ s i, (D (.p2p s i)).numOps = 2) (hs : s < P.slices) (hi : i < P.steps)
  (hready : LocalReady dag x.fired (P.idx (.p2p s i)))
include h hw hclosed hk hs hi hready

theorem sent_eq (hfresh : x.fired (P.idx (.p2p s i)) 0 = false) : Pos.of P s i = x.sent next :=
  pos_eq hw hclosed h.sent (fun s i => by rw [hk s i]; decide) hs hi hready hfresh

theorem recvd_eq (hfresh : x.fired (P.idx (.p2p s i)) 1 = false) : Pos.of P s i = x.recvd prev :=
  pos_eq hw hclosed h.recvd (fun s i => by rw [hk s i]; decide) hs hi hready hfresh

end

theorem flag_iff {m s' i' : Nat} (hs : s < P.slices) (hi : i < P.steps) (hpos : Pos.of P s i = m) (hs' : s' < P.slices)
    (hi' : i' < P.steps) (hflag : x.fired (P.idx (.p2p s' i')) k = decide (Pos.of P s' i' < m)) :
    (x.mark (P.idx (.p2p s i)) k).fired (P.idx (.p2p s' i')) k = decide (Pos.of P s' i' < m + 1) := by
  rw [Wired.mark_fired (P.p2p_mem_slots.2 ⟨hs, hi⟩) (P.p2p_mem_slots.2 ⟨hs', hi'⟩), hflag, Bool.eq_iff_iff,
    decide_eq_true_iff]
  split_ifs with he
  · obtain ⟨hslot, -⟩ := he
    obtain ⟨rfl, rfl⟩ := Slot.p2p.inj hslot
    exact iff_of_true rfl (by omega)
  · rw [decide_eq_true_iff]
    have hne : Pos.of P s' i' ≠ m := by
      intro heq
      obtain ⟨rfl, rfl⟩ := Pos.inj hs' hs (heq.trans hpos.symm)
      exact he ⟨rfl, rfl⟩
    omega

section

variable (h : RingCounts P next prev x)
include h

theorem mark_of_ne (hc : c ∈ P.slots) (hf : y.fired = x.fired) (hs : y.sent = x.sent) (hr : y.recvd = x.recvd)
    (hne : ∀ s i, c = .p2p s i → 2 ≤ k) : RingCounts P next prev (y.mark (P.idx c) k) := by
  have hflag : ∀ s < P.slices, ∀ i < P.steps, ∀ k' < 2,
      (y.mark (P.idx c) k).fired (P.idx (.p2p s i)) k' = x.fired (P.idx (.p2p s i)) k' := by
    intro s hs i hi k' hk'
    rw [Wired.mark_fired hc (P.p2p_mem_slots.2 ⟨hs, hi⟩), hf, if_neg]
    rintro ⟨he, rfl⟩
    have := hne s i he.symm
    omega
  refine ⟨fun s hs' i hi => ?_, fun s hs' i hi => ?_⟩
  · rw [hflag s hs' i hi 0 (by omega), h.sent s hs' i hi]
    show _ = decide (_ < y.sent next)
    rw [hs]
  · rw [hflag s hs' i hi 1 (by omega), h.recvd s hs' i hi]
    show _ = decide (_ < y.recvd prev)
    rw [hr]

theorem mark_send (hs : s < P.slices) (hi : i < P.steps) (hpos : Pos.of P s i = x.sent next) (hf : y.fired = x.fired)
    (hsent : y.sent = update x.sent next (x.sent next + 1)) (hr : y.recvd = x.recvd) :
    RingCounts P next prev (y.mark (P.idx (.p2p s i)) 0) := by
  refine ⟨fun s' hs' i' hi' => ?_, fun s' hs' i' hi' => ?_⟩
  · rw [flag_iff hs hi hpos hs' hi' (by rw [hf]; exact h.sent s' hs' i' hi')]
    show _ = decide (_ < y.sent next)
    rw [hsent, update_self]
  · rw [Wired.mark_fired (P.p2p_mem_slots.2 ⟨hs, hi⟩) (P.p2p_mem_slots.2 ⟨hs', hi'⟩), if_neg (by simp), hf,
      h.recvd s' hs' i' hi']
    show _ = decide (_ < y.recvd prev)
    rw [hr]

theorem mark_recv (hs : s < P.slices) (hi : i < P.steps) (hpos : Pos.of P s i = x.recvd prev) (hf : y.fired = x.fired)
    (hsent : y.sent = x.sent) (hr : y.recvd = update x.recvd prev (x.recvd prev + 1)) :
    RingCounts P next prev (y.mark (P.idx (.p2p s i)) 1) := by
  refine ⟨fun s' hs' i' hi' => ?_, fun s' hs' i' hi' => ?_⟩
  · rw [Wired.mark_fired (P.p2p_mem_slots.2 ⟨hs, hi⟩) (P.p2p_mem_slots.2 ⟨hs', hi'⟩), if_neg (by simp), hf,
      h.sent s' hs' i' hi']
    show _ = decide (_ < y.sent next)
    rw [hsent]
  · rw [flag_iff hs hi hpos hs' hi' (by rw [hf]; exact h.recvd s' hs' i' hi')]
    show _ = decide (_ < y.recvd prev)
    rw [hr, update_self]

end

end RingCounts

/-- When the operations of a node can be performed: sends before receives, in the order of the topological key. -/
def ringTime (P : Pipeline) (u k : Nat) : Nat := 2 * (P.slots[u]?.map P.key).getD 0 + k

/-- Transfers of a ring send to the next rank and receive from the previous one. -/
structure IsRing (P : Pipeline) (n : Nat) (D : Nat → Slot → NodeData) (next prev : Nat → Nat) : Prop where
  p2p : ∀ r s i, ∃ a c a' c', D r (.p2p s i) = .p2p [⟨.send, next r, a, c⟩, ⟨.recv, prev r, a', c'⟩]
  red : ∀ r s i m, ∃ d, D r (.red s i m) = .red d
  prev_lt : ∀ r < n, prev r < n
  next_prev : ∀ r < n, next (prev r) = r

namespace IsRing

variable {α : Type} {P : Pipeline} {n : Nat} {D : Nat → Slot → NodeData} {next prev : Nat → Nat} {dag : Nat → List DagNode}
  {L : Nat → RankState α → Prop}

theorem numOps_p2p (h : IsRing P n D next prev) (r s i : Nat) : (D r (.p2p s i)).numOps = 2 := by
  obtain ⟨a, c, a', c', he⟩ := h.p2p r s i
  rw [he]
  rfl

theorem numOps_le (h : IsRing P n D next prev) (r : Nat) (c : Slot) : (D r c).numOps ≤ 2 := by
  cases c with
  | p2p s i => exact (h.numOps_p2p r s i).le
  | red s i m =>
    obtain ⟨d, he⟩ := h.red r s i m
    rw [he]
    show 1 ≤ 2
    omega

theorem timed (h : IsRing P n D next prev) (hw : ∀ r < n, Wired P (D r) (dag r))
    (hL : ∀ r < n, ∀ x, L r x → RingCounts P (next r) (prev r) x) : Timed n dag L fun _ => ringTime P := by
  have htime : ∀ c ∈ P.slots, ∀ k, ringTime P (P.idx c) k = 2 * P.key c + k := by
    intro c hc k
    have hget : P.slots[P.idx c]? = some c := P.numbering.getElem?_idx hc
    rw [ringTime, hget]
    rfl
  constructor
  · rintro r hr v u hv k' k ⟨node', hnode', hk'⟩ ⟨node, hnode, hk⟩
    obtain ⟨c, hc, rfl, hdata⟩ := (hw r hr).slot_of_node hnode
    obtain ⟨p, hp, rfl⟩ := ((hw r hr).edge_iff hc).1 hv
    have hp' := P.parents_mem hc hp
    obtain ⟨p', hps, hidx, hdata'⟩ := (hw r hr).slot_of_node hnode'
    obtain rfl := P.numbering.idx_inj hp' hps hidx
    have hkey := P.key_lt hp' ((P.wiring.mem_kids_iff hp' hc).2 hp)
    have hle := h.numOps_le r p
    rw [← hdata'] at hle
    rw [htime p hp', htime c hc]
    omega
  · intro r hr x hx hclosed u k node ops peer addr count hnode hd hop hready hfresh
    obtain ⟨c, hc, rfl, hdata⟩ := (hw r hr).slot_of_node hnode
    rw [hdata] at hd
    cases c with
    | red s i m =>
      obtain ⟨d, he⟩ := h.red r s i m
      rw [he] at hd
      cases hd
    | p2p s i =>
      obtain ⟨hs, hi⟩ := P.p2p_mem_slots.1 hc
      obtain ⟨a, b, a', b', he⟩ := h.p2p r s i
      rw [he] at hd
      cases hd
      match k, hop with
      | 0, hop => cases hop
      | 1, hop =>
        cases hop
        refine ⟨h.prev_lt r hr, fun y hy hall => ?_⟩
        have hpos := (hL r hr x hx).recvd_eq (hw r hr) hclosed (h.numOps_p2p r) hs hi hready hfresh
        obtain ⟨node', hnode', hdata'⟩ := (hw _ (h.prev_lt r hr)).node_of_slot hc
        have hsent := hall (P.idx (.p2p s i)) 0 ⟨node', hnode', by rw [hdata', h.numOps_p2p]; decide⟩
          (by rw [htime _ hc, htime _ hc]; omega)
        rw [(hL _ (h.prev_lt r hr) y hy).sent s hs i hi, h.next_prev r hr, decide_eq_true_iff] at hsent
        omega
      | k + 2, hop => cases hop

end IsRing

end FlagCX.UniRunner
