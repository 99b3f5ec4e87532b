import Mathlib.Algebra.BigOperators.Group.Finset.Basic
import Mathlib.Data.Fintype.EquivFin
import Mathlib.Data.List.Nodup
import Mathlib.Logic.Relation
import Mathlib.Order.WellFounded
import Mathlib.Tactic.Ring
import Mathlib.Data.List.GetD

/-!
# Numbered dependency graphs

A graph stored as an array of child lists, the node numbers being positions of the array.

* `Numbering`  : a list of slots with the closed formula of each slot's position.
* `Wiring`     : child and parent lists of the slots that count the same edges.
* `owed`       : the edges to a node from the nodes outside a list, as they go by while nodes are taken off.
* `Acyclic.exists_source` : outside a list there is a node all of whose predecessors are inside.
-/

namespace FlagCX.Dag
open List Option

def Edge (children : List (List Nat)) (u v : Nat) : Prop := ∃ cs, children[u]? = some cs ∧ v ∈ cs

/-- The number of (node, child slot) pairs that point to `v`. -/
def inEdges (children : List (List Nat)) (v : Nat) : Nat := (children.map (count v)).sum

def Acyclic (children : List (List Nat)) : Prop := ∀ v, ¬ Relation.TransGen (Edge children) v v

theorem acyclic_of_key {children : List (List Nat)} (key : Nat → Nat)
    (h : ∀ u v, Edge children u v → key u < key v) : Acyclic children := by
  have hlt : ∀ u v, Relation.TransGen (Edge children) u v → key u < key v := by
    intro u v huv
    induction huv with
    | single e => exact h _ _ e
    | tail _ e ih => exact ih.trans (h _ _ e)
  exact fun v hv => (hlt v v hv).ne rfl

/-! ## Nodes that are taken off -/

section Owed
variable {children : List (List Nat)} {D D' : List Nat} {u v : Nat}

/-- The edges to `v` from the nodes outside `D`. -/
def owed (children : List (List Nat)) (D : List Nat) (v : Nat) : Nat :=
  ∑ u ∈ Finset.range children.length, if u ∈ D then 0 else (children.getD u []).count v

theorem owed_congr (h : ∀ u, u ∈ D ↔ u ∈ D') (v : Nat) : owed children D v = owed children D' v := by
  refine Finset.sum_congr rfl fun u _ => ?_
  simp only [h u]

theorem owed_nil (children : List (List Nat)) (v : Nat) : owed children [] v = inEdges children v := by
  unfold owed inEdges
  induction children using reverseRecOn with
  | nil => rfl
  | append_singleton cs c ih =>
    rw [length_append, length_singleton, Finset.sum_range_succ, map_append, sum_append, ← ih]
    congr 1
    · refine Finset.sum_congr rfl fun u hu => ?_
      rw [getD_append _ _ _ _ (Finset.mem_range.1 hu)]
    · simp

theorem owed_cons (hu : u < children.length) (hD : u ∉ D) (v : Nat) :
    owed children D v = owed children (u :: D) v + (children.getD u []).count v := by
  unfold owed
  have hmem : u ∈ Finset.range children.length := Finset.mem_range.2 hu
  rw [← Finset.add_sum_erase _ _ hmem, ← Finset.add_sum_erase _ (fun w => if w ∈ u :: D then 0 else _) hmem, if_neg hD,
    if_pos mem_cons_self, zero_add, add_comm]
  congr 1
  refine Finset.sum_congr rfl fun w hw => ?_
  have hne : w ≠ u := (Finset.mem_erase.1 hw).1
  simp [hne]

theorem owed_eq_zero : owed children D v = 0 ↔ ∀ u, Edge children u v → u ∈ D := by
  unfold owed
  rw [Finset.sum_eq_zero_iff]
  constructor
  · rintro h u ⟨cs, hu, hv⟩
    by_contra hD
    have hlt := (List.getElem?_eq_some_iff.1 hu).1
    have hz := h u (Finset.mem_range.2 hlt)
    rw [if_neg hD, getD_eq_getElem?_getD, hu, getD_some] at hz
    exact count_eq_zero.1 hz hv
  · intro h u hu
    have hlt := Finset.mem_range.1 hu
    split_ifs with hD
    · rfl
    · refine count_eq_zero.2 fun hv => hD (h u ⟨children[u], getElem?_eq_getElem hlt, ?_⟩)
      rwa [getD_eq_getElem _ _ hlt] at hv

theorem Acyclic.exists_source (h : Acyclic children) (hu : u < children.length) (hD : u ∉ D) :
    ∃ v < children.length, v ∉ D ∧ ∀ w, Edge children w v → w ∈ D := by
  have hwf : WellFounded fun a b : Fin children.length => Relation.TransGen (Edge children) a b := by
    have : Std.Irrefl fun a b : Fin children.length => Relation.TransGen (Edge children) a.val b.val := ⟨fun a => h a.val⟩
    exact Finite.wellFounded_of_trans_of_irrefl _
  obtain ⟨v, hv, hmin⟩ := hwf.has_min {v : Fin children.length | v.val ∉ D} ⟨⟨u, hu⟩, hD⟩
  refine ⟨v.val, v.isLt, hv, fun w hw => ?_⟩
  by_contra hwD
  obtain ⟨cs, hget, -⟩ := id hw
  exact hmin ⟨w, (List.getElem?_eq_some_iff.1 hget).1⟩ hwD (.single hw)

end Owed

/-! ## Slots and their positions -/

/-- Slots in array order, and the formula that gives the position of each. -/
structure Numbering (κ : Type) where
  slots : List κ
  idx : κ → Nat
  number : slots.map idx = range slots.length

namespace Numbering

variable {κ : Type} (N : Numbering κ)

theorem slots_nodup : N.slots.Nodup := List.Nodup.of_map N.idx (N.number ▸ nodup_range)

theorem idx_of_getElem? {i : Nat} {c : κ} (h : N.slots[i]? = some c) : N.idx c = i := by
  have hi : i < N.slots.length := by
    by_contra hlt
    rw [getElem?_eq_none (by omega)] at h
    exact absurd h (by simp)
  have hm : (N.slots.map N.idx)[i]? = some (N.idx c) := by rw [getElem?_map, h]; rfl
  rw [N.number, getElem?_range hi] at hm
  exact (some.inj hm).symm

theorem getElem?_idx {c : κ} (h : c ∈ N.slots) : N.slots[N.idx c]? = some c := by
  obtain ⟨i, hi⟩ := getElem?_of_mem h
  rw [N.idx_of_getElem? hi, hi]

theorem idx_lt {c : κ} (h : c ∈ N.slots) : N.idx c < N.slots.length := by
  have := mem_map_of_mem (f := N.idx) h
  rwa [N.number, mem_range] at this

theorem idx_inj {c d : κ} (hc : c ∈ N.slots) (hd : d ∈ N.slots) (h : N.idx c = N.idx d) : c = d := by
  have := N.getElem?_idx hc
  rw [h, N.getElem?_idx hd] at this
  exact (some.inj this).symm

end Numbering

/-! ## Wirings -/

/-- Child and parent lists that agree edge by edge, and a key that every edge increases. -/
structure Wiring {κ : Type} [DecidableEq κ] (N : Numbering κ) where
  kids : κ → List κ
  parents : κ → List κ
  key : κ → Nat
  kids_mem : ∀ c ∈ N.slots, ∀ d ∈ kids c, d ∈ N.slots
  parents_mem : ∀ d ∈ N.slots, ∀ c ∈ parents d, c ∈ N.slots
  count_kids : ∀ c ∈ N.slots, ∀ d ∈ N.slots, (kids c).count d = (parents d).count c
  key_lt : ∀ c ∈ N.slots, ∀ d ∈ kids c, key c < key d

namespace Wiring

variable {κ : Type} [DecidableEq κ] {N : Numbering κ} (W : Wiring N)

/-- The child lists of `N`'s array are `W`'s, up to the order inside each list. -/
def Lists (children : List (List Nat)) : Prop := List.Forall₂ (fun cs c => cs.Perm ((W.kids c).map N.idx)) children N.slots

variable {W} {children : List (List Nat)}

theorem Lists.length (h : W.Lists children) : children.length = N.slots.length := List.Forall₂.length_eq h

theorem Lists.get (h : W.Lists children) {u : Nat} {cs : List Nat} (hu : children[u]? = some cs) :
    ∃ c ∈ N.slots, N.idx c = u ∧ cs.Perm ((W.kids c).map N.idx) := by
  obtain ⟨hlt, hget⟩ := List.getElem?_eq_some_iff.1 hu
  have hlt' : u < N.slots.length := h.length ▸ hlt
  refine ⟨N.slots.get ⟨u, hlt'⟩, get_mem _ _, N.idx_of_getElem? (by simp [hlt']), ?_⟩
  subst hget
  exact List.Forall₂.get h hlt hlt'

theorem Lists.child_lt (h : W.Lists children) {u v : Nat} (e : Edge children u v) : v < N.slots.length := by
  obtain ⟨cs, hu, hv⟩ := e
  obtain ⟨c, hc, -, hperm⟩ := h.get hu
  obtain ⟨d, hd, rfl⟩ := mem_map.1 (hperm.mem_iff.1 hv)
  exact N.idx_lt (W.kids_mem c hc d hd)

theorem count_map_idx {c d : κ} (hc : c ∈ N.slots) (hd : d ∈ N.slots) :
    ((W.kids c).map N.idx).count (N.idx d) = (W.kids c).count d := by
  rw [count, count, countP_map]
  refine countP_congr fun x hx => ?_
  have hxs := W.kids_mem c hc x hx
  simp only [Function.comp_apply, beq_iff_eq]
  exact ⟨fun hi => N.idx_inj hxs hd hi, fun hxd => by rw [hxd]⟩

/-- **The edges that point to a slot are as many as its parents.** -/
theorem Lists.inEdges_eq (h : W.Lists children) {d : κ} (hd : d ∈ N.slots) :
    inEdges children (N.idx d) = (W.parents d).length := by
  have hmap : children.map (count (N.idx d)) = N.slots.map fun c => (W.parents d).count c := by
    refine ext_getElem (by simp [h.length]) fun i hi hi' => ?_
    have hi₁ : i < children.length := by simpa using hi
    have hi₂ : i < N.slots.length := by simpa using hi'
    have hmem : N.slots[i] ∈ N.slots := getElem_mem hi₂
    have hp : children[i].Perm ((W.kids N.slots[i]).map N.idx) := List.Forall₂.get h hi₁ hi₂
    rw [getElem_map, getElem_map, hp.count_eq, count_map_idx hmem hd, W.count_kids _ hmem d hd]
  have hsum : ∑ c ∈ N.slots.toFinset, (W.parents d : Multiset κ).count c = (W.parents d : Multiset κ).card :=
    Multiset.sum_count_eq_card fun c hc => by
      rw [List.mem_toFinset]
      exact W.parents_mem d hd c (by simpa using hc)
  rw [sum_toFinset _ N.slots_nodup] at hsum
  rw [inEdges, hmap]
  simpa using hsum

theorem mem_kids_iff (W : Wiring N) {c d : κ} (hc : c ∈ N.slots) (hd : d ∈ N.slots) : d ∈ W.kids c ↔ c ∈ W.parents d := by
  rw [← count_pos_iff, ← count_pos_iff, W.count_kids c hc d hd]

theorem Lists.edge_iff (h : W.Lists children) {u : Nat} {d : κ} (hd : d ∈ N.slots) :
    Edge children u (N.idx d) ↔ ∃ c ∈ W.parents d, N.idx c = u := by
  constructor
  · rintro ⟨cs, hu, hv⟩
    obtain ⟨c, hc, rfl, hperm⟩ := h.get hu
    obtain ⟨d', hd', he⟩ := mem_map.1 (hperm.mem_iff.1 hv)
    obtain rfl := N.idx_inj (W.kids_mem c hc d' hd') hd he
    exact ⟨c, (W.mem_kids_iff hc hd).1 hd', rfl⟩
  · rintro ⟨c, hcd, rfl⟩
    have hc := W.parents_mem d hd c hcd
    have hlt : N.idx c < children.length := h.length ▸ N.idx_lt hc
    obtain ⟨c', hc', he, hperm⟩ := h.get (getElem?_eq_getElem hlt)
    obtain rfl := N.idx_inj hc' hc he
    refine ⟨children[N.idx c'], getElem?_eq_getElem hlt, hperm.mem_iff.2 ?_⟩
    exact mem_map_of_mem ((W.mem_kids_iff hc hd).2 hcd)

theorem Lists.acyclic (h : W.Lists children) : Acyclic children := by
  refine acyclic_of_key (fun v => (N.slots[v]?.map W.key).getD 0) fun u v e => ?_
  obtain ⟨cs, hu, hv⟩ := e
  obtain ⟨c, hc, rfl, hperm⟩ := h.get hu
  obtain ⟨d, hd, rfl⟩ := mem_map.1 (hperm.mem_iff.1 hv)
  have hlt := W.key_lt c hc d hd
  simpa [N.getElem?_idx hc, N.getElem?_idx (W.kids_mem c hc d hd)] using hlt

end Wiring

end FlagCX.Dag
