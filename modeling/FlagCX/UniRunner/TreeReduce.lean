import FlagCX.UniRunner.ReduceScatter
import FlagCX.UniRunner.Tree

/-!
# The tree Reduce on all ranks

Every rank runs the DAG of `initUniRunnerStateTreeRed`. The first half of `scratchbuff` holds the running result, the second
half what was received last; the root's last reductions write to `recvbuff`.

* `TreeReduce`            : ranks, root, slices, buffers and initial memories.
* `TreeReduce.acc`        : the running value of a rank after some steps.
* `TreeReduce.Own`        : a rank on its own; every operation keeps it (`TreeReduce.keeps`).
-/

namespace FlagCX.UniRunner
open List Function

open Dag

/-- A tree Reduce over element type `α`. The scratch buffer has room for twice the elements. -/
structure TreeReduce (α : Type) where
  nranks : Nat
  count : Nat
  cfg : Config
  root : Nat
  sendbuff : Nat → Nat
  recvbuff : Nat → Nat
  scratchbuff : Nat → Nat
  op : α → α → α
  init : Nat → Nat → α
  two_le : 2 ≤ nranks
  root_lt : root < nranks
  redSlices_pos : 0 < cfg.numRedSlices count
  scratch_apart : ∀ r < nranks, scratchbuff r + 2 * count ≤ sendbuff r ∨ sendbuff r + count ≤ scratchbuff r
  recv_apart : scratchbuff root + 2 * count ≤ recvbuff root ∨ recvbuff root + count ≤ scratchbuff root
  placed : recvbuff root = sendbuff root ∨ recvbuff root + count ≤ sendbuff root ∨ sendbuff root + count ≤ recvbuff root

namespace TreeReduce

variable {α : Type} (A : TreeReduce α)

def comm (r : Nat) : Comm := ⟨r, A.nranks⟩

def buffers (r : Nat) : Buffers := ⟨A.sendbuff r, A.recvbuff r, A.scratchbuff r, A.count⟩

/-- The DAG rank `r` builds. -/
def dag (r : Nat) : List DagNode :=
  match initUniRunnerStateTreeRed (A.comm r) (A.buffers r) A.cfg A.root with
  | .ok st => st.dagNodes
  | .error _ => []

abbrev slices : Nat := A.cfg.uniRunnerNSlices

/-- The number of reductions of a step. -/
abbrev redSlices : Nat := A.cfg.numRedSlices A.count

abbrev steps : Nat := bitLength (A.nranks - 1)

def algo (r : Nat) : Nat := algoRank (A.comm r) A.root

def rank (a : Nat) : Nat := (a + A.root) % A.nranks

def recvs (r : Nat) : Nat := recvNodesPerSlice (A.comm r) A.root

def chain (r : Nat) : Pipeline := phases A.slices (A.recvs r) (sendNodesPerSlice (A.comm r) A.root) A.redSlices

/-- The rank a receive comes from. -/
def child (r i : Nat) : Nat := (r + 2 ^ i) % A.nranks

/-- The rank a send goes to. -/
def parent (r : Nat) : Nat := (r + A.nranks - 2 ^ ctz (A.algo r)) % A.nranks

def cnt (s : Nat) : Nat := partCount A.count A.slices s

/-- Element `k` of slice `s`. -/
def cell (s k : Nat) : Nat := partOffset A.count A.slices s + k

def ops (r : Nat) : Slot → NodeData
  | .p2p s i =>
    if i < A.recvs r then .p2p [⟨.recv, A.child r i, A.scratchbuff r + A.count + A.cell s 0, A.cnt s⟩]
    else .p2p [⟨.send, A.parent r, (if A.recvs r = 0 then A.sendbuff r else A.scratchbuff r) + A.cell s 0, A.cnt s⟩]
  | .red s i m =>
    let k := partOffset (A.cnt s) A.redSlices m
    .red ⟨A.scratchbuff r + A.count + A.cell s k, (if i = 0 then A.sendbuff r else A.scratchbuff r) + A.cell s k,
      (if i = A.steps - 1 then A.recvbuff r else A.scratchbuff r) + A.cell s k, partCount (A.cnt s) A.redSlices m⟩

variable {A} {r a s i j k m : Nat}

theorem wired (A : TreeReduce α) (r : Nat) : Wired (A.chain r) (A.ops r) (A.dag r) := by
  have hok : initUniRunnerStateTreeRed (A.comm r) (A.buffers r) A.cfg A.root =
      .ok (treeRed (A.comm r) (A.buffers r) A.slices A.redSlices A.root) := by
    unfold initUniRunnerStateTreeRed
    rw [withRanks_ok A.two_le]
    rfl
  obtain ⟨es, he, hm⟩ := treeRed_nodes (A.comm r) (A.buffers r) A.slices A.redSlices A.root A.two_le
  have hdag : A.dag r = es.map (·.node) := by
    unfold dag
    rw [hok]
    rw [he]
    rfl
  rw [hdag]
  refine Wired.of_nodes hm (fun c _ => ?_) fun c => ?_
  · cases c with
    | p2p s i =>
      simp only [treeRedData, ops, cell, add_zero, add_assoc]
      rfl
    | red s i m =>
      have hsub : ∀ x y z : Nat, x + (A.count + y + z) - A.count = x + (y + z) := fun _ _ _ => by omega
      show NodeData.red ⟨A.scratchbuff r + (A.count + _ + _), _ + (A.count + _ + _) - A.count,
        _ + (A.count + _ + _) - A.count, _⟩ = _
      rw [hsub, hsub, ops, cell, add_assoc A.count, ← add_assoc (A.scratchbuff r)]
      rfl
  · cases c with
    | p2p s i =>
      unfold ops
      dsimp only
      split_ifs <;> exact zero_lt_one
    | red s i m => exact zero_lt_one

/-! ## Ranks -/

theorem algo_lt (A : TreeReduce α) (r : Nat) : A.algo r < A.nranks := algoRank_lt A.two_le

theorem rank_lt (A : TreeReduce α) (a : Nat) : A.rank a < A.nranks := Nat.mod_lt _ (by have := A.two_le; omega)

theorem algo_eq (hr : r < A.nranks) : A.algo r = if A.root ≤ r then r - A.root else r + A.nranks - A.root := by
  show (r + A.nranks - A.root) % A.nranks = _
  rw [ReduceScatter.mod_eq (by omega)]
  split_ifs <;> omega

theorem rank_eq (ha : a < A.nranks) : A.rank a = if a + A.root < A.nranks then a + A.root else a + A.root - A.nranks := by
  have hroot := A.root_lt
  exact ReduceScatter.mod_eq (by omega)

theorem rank_algo (hr : r < A.nranks) : A.rank (A.algo r) = r := by
  have hroot := A.root_lt
  rw [rank_eq (A.algo_lt r), algo_eq hr]
  split_ifs <;> omega

theorem algo_rank (ha : a < A.nranks) : A.algo (A.rank a) = a := by
  rw [algo_eq (A.rank_lt a), rank_eq ha]
  split_ifs <;> omega

theorem algo_eq_zero_iff (hr : r < A.nranks) : A.algo r = 0 ↔ r = A.root := by
  have hroot := A.root_lt
  rw [algo_eq hr]
  split_ifs <;> omega

theorem algo_add (hr : r < A.nranks) (h : A.algo r + k < A.nranks) : A.algo ((r + k) % A.nranks) = A.algo r + k := by
  have hrank : (r + k) % A.nranks = A.rank (A.algo r + k) := by
    conv_lhs => rw [← rank_algo hr, rank, Nat.mod_add_mod]
    congr 1
    omega
  rw [hrank, algo_rank h]

theorem lt_recvs_iff (A : TreeReduce α) (r i : Nat) : i < A.recvs r ↔ HasChild A.nranks (A.algo r) i :=
  lt_recvNodesPerSlice_iff A.two_le

theorem algo_child (hr : r < A.nranks) (hi : i < A.recvs r) : A.algo (A.child r i) = A.algo r + 2 ^ i :=
  algo_add hr ((A.lt_recvs_iff r i).1 hi).2

theorem child_lt (A : TreeReduce α) (r i : Nat) : A.child r i < A.nranks := Nat.mod_lt _ (by have := A.two_le; omega)

theorem parent_lt (A : TreeReduce α) (r : Nat) : A.parent r < A.nranks := Nat.mod_lt _ (by have := A.two_le; omega)

section

variable (hr : r < A.nranks)
include hr

theorem algo_parent (hne : r ≠ A.root) : A.algo (A.parent r) = A.algo r - 2 ^ ctz (A.algo r) := by
  have hpos : 0 < A.algo r := pos_of_ne_zero fun h => hne ((algo_eq_zero_iff hr).1 h)
  have hle := ctz_pow_le hpos
  have hlt := A.algo_lt r
  have halgo := algo_eq (A := A) hr
  have hparent : A.parent r = A.rank (A.algo r - 2 ^ ctz (A.algo r)) := by
    rw [parent]
    generalize 2 ^ ctz (A.algo r) = p at hle ⊢
    rw [rank_eq (by omega), ReduceScatter.mod_eq (by omega)]
    split_ifs at halgo ⊢ <;> omega
  rw [hparent, algo_rank (lt_of_le_of_lt (Nat.sub_le _ _) hlt)]

theorem algo_inj {p : Nat} (hp : p < A.nranks) (h : A.algo r = A.algo p) : r = p := by
  rw [← rank_algo hr, h, rank_algo hp]

theorem child_eq_iff {p : Nat} (hp : p < A.nranks) :
    i < A.recvs r ∧ A.child r i = p ↔ p ≠ A.root ∧ A.parent p = r ∧ i = ctz (A.algo p) := by
  have hiff := child_iff_parent (a := A.algo r) (i := i) (A.algo_lt p)
  rw [A.lt_recvs_iff]
  constructor
  · rintro ⟨hi, rfl⟩
    obtain ⟨h0, ha, hc⟩ := hiff.1 ⟨hi, (algo_child hr ((A.lt_recvs_iff r i).2 hi)).symm⟩
    have hne : A.child r i ≠ A.root := fun h => h0 ((algo_eq_zero_iff hp).2 h)
    exact ⟨hne, algo_inj (A.parent_lt _) hr ((algo_parent hp hne).trans ha.symm), hc⟩
  · rintro ⟨hne, rfl, hc⟩
    obtain ⟨hi, ha⟩ := hiff.2 ⟨fun h => hne ((algo_eq_zero_iff hp).1 h), algo_parent hp hne, hc⟩
    refine ⟨hi, algo_inj (A.child_lt _ _) hp ?_⟩
    rw [algo_child hr ((A.lt_recvs_iff _ i).2 hi), ha]

theorem child_inj (hi : i < A.recvs r) (hj : j < A.recvs r) (h : A.child r i = A.child r j) : i = j := by
  have hi' := ((child_eq_iff hr (A.child_lt r i)).1 ⟨hi, rfl⟩).2.2
  have hj' := ((child_eq_iff hr (A.child_lt r i)).1 ⟨hj, h.symm⟩).2.2
  exact hi'.trans hj'.symm

theorem parent_child (hi : i < A.recvs r) : A.parent (A.child r i) = r :=
  ((child_eq_iff hr (A.child_lt r i)).1 ⟨hi, rfl⟩).2.1

theorem child_ne_root (hi : i < A.recvs r) : A.child r i ≠ A.root := ((child_eq_iff hr (A.child_lt r i)).1 ⟨hi, rfl⟩).1

theorem recvs_child_le (hi : i < A.recvs r) : A.recvs (A.child r i) ≤ i := by
  by_contra hlt
  have hchild := (A.lt_recvs_iff _ i).1 (Nat.lt_of_not_le hlt)
  rw [algo_child hr hi] at hchild
  exact not_hasChild_child ((A.lt_recvs_iff r i).1 hi) le_rfl hchild

end

theorem recvs_root (A : TreeReduce α) : A.recvs A.root = A.steps :=
  recvNodesPerSlice_root _ ((algo_eq_zero_iff A.root_lt).2 rfl)

theorem recvs_lt (hr : r < A.nranks) (hne : r ≠ A.root) : A.recvs r < A.steps :=
  recvNodesPerSlice_lt _ A.two_le fun h => hne ((algo_eq_zero_iff hr).1 h)

theorem steps_pos (A : TreeReduce α) : 0 < A.steps := Nat.size_pos.2 (by have := A.two_le; omega)

/-! ## Slots -/

theorem p2p_slot (hr : r < A.nranks) : .p2p s i ∈ (A.chain r).slots ↔
    s < A.slices ∧ (i < A.recvs r ∨ i = A.recvs r ∧ r ≠ A.root) := by
  rw [Pipeline.p2p_mem_slots]
  show s < A.slices ∧ i < A.recvs r + (if A.algo r ≠ 0 then 1 else 0) ↔ _
  have hroot := algo_eq_zero_iff (A := A) hr
  split_ifs <;> omega

theorem red_slot : .red s i m ∈ (A.chain r).slots ↔ s < A.slices ∧ i < A.recvs r ∧ m < A.redSlices := by
  rw [Pipeline.red_mem_slots]
  show s < A.slices ∧ i < A.recvs r + (if A.algo r ≠ 0 then 1 else 0) ∧ m < (if i < A.recvs r then A.redSlices else 0) ↔ _
  split_ifs <;> omega

/-! ## Cells -/

theorem cell_lt (hs : s < A.slices) (hk : k < A.cnt s) : A.cell s k < A.count := by
  have hpart := @partOffset_add_le A.count _ _ hs
  unfold cnt at hk
  unfold cell
  omega

theorem cell_inj {s' k' : Nat} (hk : k < A.cnt s) (hk' : k' < A.cnt s') (h : A.cell s k = A.cell s' k') :
    s = s' ∧ k = k' := part_unique hk hk' h

theorem exists_elem {e : Nat} (hS : 0 < A.slices) (he : e < A.count) : ∃ s < A.slices, ∃ k < A.cnt s, e = A.cell s k :=
  exists_part hS he

theorem part_lt (hm : m < A.redSlices) (hj : j < partCount (A.cnt s) A.redSlices m) :
    partOffset (A.cnt s) A.redSlices m + j < A.cnt s := by
  have hpart := @partOffset_add_le (A.cnt s) _ _ hm
  omega

theorem write_cell {base s' k' lo len : Nat} {mem g : Nat → α} (hk' : k' < A.cnt s') (hlen : lo + len ≤ A.cnt s) :
    writeAt mem (base + A.cell s lo) len g (base + A.cell s' k') =
      if s' = s ∧ lo ≤ k' ∧ k' < lo + len then g (k' - lo) else mem (base + A.cell s' k') := by
  unfold writeAt
  by_cases hin : base + A.cell s lo ≤ base + A.cell s' k' ∧ base + A.cell s' k' < base + A.cell s lo + len
  · have hcell : A.cell s (lo + (A.cell s' k' - A.cell s lo)) = A.cell s' k' := by
      unfold cell at hin ⊢
      omega
    obtain ⟨rfl, hj⟩ := cell_inj (show lo + (A.cell s' k' - A.cell s lo) < A.cnt s by omega) hk' hcell
    rw [if_pos hin, if_pos ⟨rfl, by omega, by omega⟩]
    congr 1
    omega
  · rw [if_neg hin, if_neg]
    rintro ⟨rfl, h1, h2⟩
    unfold cell at hin
    omega

theorem write_apart {base base' s' k' lo len : Nat} {mem g : Nat → α} (hs : s < A.slices) (hs' : s' < A.slices)
    (hk' : k' < A.cnt s') (hlen : lo + len ≤ A.cnt s)
    (hapart : base + A.count ≤ base' ∨ base' + A.count ≤ base) :
    writeAt mem (base + A.cell s lo) len g (base' + A.cell s' k') = mem (base' + A.cell s' k') := by
  refine writeAt_of_not _ _ ?_
  rintro ⟨h₁, h₂⟩
  have hlast := cell_lt hs (show lo + (len - 1) < A.cnt s by omega)
  have hlt := cell_lt hs' hk'
  unfold cell at h₁ h₂ hlast hlt
  omega

/-! ## Values -/

variable (A)

/-- Element `k` of slice `s` at place `a` after the first `i` steps. -/
def acc (s k : Nat) : Nat → Nat → α
  | 0, a => A.init (A.rank a) (A.sendbuff (A.rank a) + A.cell s k)
  | i + 1, a =>
    if HasChild A.nranks a i then
      if Triggered (A.cnt s) A.redSlices k then A.op (acc s k i (a + 2 ^ i)) (acc s k i a)
      else A.init (A.rank a) (A.scratchbuff (A.rank a) + A.cell s k)
    else acc s k i a

/-- What the first half of the scratch buffer holds after `i` reductions. -/
def held (r s k i : Nat) : α :=
  if i = 0 then A.init r (A.scratchbuff r + A.cell s k) else A.acc s k i (A.algo r)

/-- The number of steps whose result goes to the scratch buffer. -/
def kept (r : Nat) : Nat := if r = A.root then A.steps - 1 else A.recvs r

/-- The message rank `r` sends for slice `s`. -/
def message (r s : Nat) : List α := (range (A.cnt s)).map fun k => A.acc s k (A.recvs r) (A.algo r)

structure Own (r : Nat) (x : RankState α) : Prop where
  recvd : ∀ s < A.slices, ∀ i < A.recvs r, x.fired ((A.chain r).idx (.p2p s i)) 0 = decide (s < x.recvd (A.child r i))
  sent : r ≠ A.root → ∀ s < A.slices,
    x.fired ((A.chain r).idx (.p2p s (A.recvs r))) 0 = decide (s < x.sent (A.parent r))
  run_mem : ∀ s < A.slices, ∀ m < A.redSlices, ∀ j < partCount (A.cnt s) A.redSlices m, ∀ i ≤ A.kept r,
    (0 < i → x.fired ((A.chain r).idx (.red s (i - 1) m)) 0 = true) →
    (i < A.kept r → x.fired ((A.chain r).idx (.red s i m)) 0 = false) →
    x.mem (A.scratchbuff r + A.cell s (partOffset (A.cnt s) A.redSlices m + j)) =
      A.held r s (partOffset (A.cnt s) A.redSlices m + j) i
  got_mem : ∀ s < A.slices, ∀ m < A.redSlices, ∀ j < partCount (A.cnt s) A.redSlices m, ∀ i < A.recvs r,
    x.fired ((A.chain r).idx (.p2p s i)) 0 = true → x.fired ((A.chain r).idx (.red s i m)) 0 = false →
    x.mem (A.scratchbuff r + A.count + A.cell s (partOffset (A.cnt s) A.redSlices m + j)) =
      A.acc s (partOffset (A.cnt s) A.redSlices m + j) i (A.algo r + 2 ^ i)
  send_mem : ∀ s < A.slices, ∀ m < A.redSlices, ∀ j < partCount (A.cnt s) A.redSlices m,
    (r = A.root → A.recvbuff r = A.sendbuff r → x.fired ((A.chain r).idx (.red s (A.steps - 1) m)) 0 = false) →
    x.mem (A.sendbuff r + A.cell s (partOffset (A.cnt s) A.redSlices m + j)) =
      A.init r (A.sendbuff r + A.cell s (partOffset (A.cnt s) A.redSlices m + j))
  recv_mem : r = A.root → ∀ s < A.slices, ∀ m < A.redSlices, ∀ j < partCount (A.cnt s) A.redSlices m,
    x.mem (A.recvbuff r + A.cell s (partOffset (A.cnt s) A.redSlices m + j)) =
      if x.fired ((A.chain r).idx (.red s (A.steps - 1) m)) 0 = true ∧
        j < triggerCount (partCount (A.cnt s) A.redSlices m) then
        A.acc s (partOffset (A.cnt s) A.redSlices m + j) A.steps 0
      else A.init r (A.recvbuff r + A.cell s (partOffset (A.cnt s) A.redSlices m + j))

variable {A}

theorem lt_kept_iff (hr : r < A.nranks) (hi : i < A.recvs r) : i < A.kept r ↔ i ≠ A.steps - 1 := by
  unfold kept
  split_ifs with hroot
  · subst hroot
    rw [recvs_root] at hi
    omega
  · have := recvs_lt hr hroot
    omega

theorem kept_le (hr : r < A.nranks) : A.kept r ≤ A.recvs r := by
  unfold kept
  split_ifs with hroot
  · subst hroot
    rw [recvs_root]
    omega
  · exact le_rfl

theorem eq_root_of_last (hr : r < A.nranks) (hi : i < A.recvs r) (hlast : i = A.steps - 1) : r = A.root := by
  by_contra hroot
  have := recvs_lt hr hroot
  omega

theorem acc_of_not (hij : i ≤ j) (hno : ∀ l, i ≤ l → l < j → ¬ HasChild A.nranks a l) : A.acc s k j a = A.acc s k i a := by
  induction j, hij using Nat.le_induction with
  | base => rfl
  | succ j hij ih => rw [acc, if_neg (hno j hij (Nat.lt_succ_self j)), ih fun l hl hl' => hno l hl (by omega)]

theorem message_child (hr : r < A.nranks) (hi : i < A.recvs r) : A.message (A.child r i) s =
    (range (A.cnt s)).map fun k => A.acc s k i (A.algo r + 2 ^ i) := by
  refine map_congr_left fun k _ => ?_
  rw [algo_child hr hi]
  symm
  refine acc_of_not (recvs_child_le hr hi) fun l hl _ => ?_
  rw [← algo_child hr hi, ← lt_recvs_iff]
  omega

theorem acc_eq_collect (ht : Triggered (A.cnt s) A.redSlices k) (i : Nat) (a : Nat) : A.acc s k i a =
    collect A.op (fun a => A.init (A.rank a) (A.sendbuff (A.rank a) + A.cell s k)) A.nranks i a := by
  induction i generalizing a with
  | zero => rfl
  | succ i ih => rw [acc, collect, if_pos ht, ih, ih]

theorem held_of_not (hr : r < A.nranks) (ht : ¬ Triggered (A.cnt s) A.redSlices k) (hi : i ≤ A.recvs r) :
    A.held r s k i = A.init r (A.scratchbuff r + A.cell s k) := by
  unfold held
  split_ifs with h0
  · rfl
  · obtain ⟨i, rfl⟩ := Nat.exists_eq_succ_of_ne_zero h0
    rw [acc, if_pos ((A.lt_recvs_iff r i).1 hi), if_neg ht, rank_algo hr]

theorem Own.run_of_eq {x : RankState α} {f : Nat → Nat → Bool} (h : A.Own r x) (hs : s < A.slices) (hm : m < A.redSlices)
    (hj : j < partCount (A.cnt s) A.redSlices m) (hi : i ≤ A.kept r)
    (hred : ∀ l < A.kept r, f ((A.chain r).idx (.red s l m)) 0 = x.fired ((A.chain r).idx (.red s l m)) 0)
    (h1 : 0 < i → f ((A.chain r).idx (.red s (i - 1) m)) 0 = true)
    (h2 : i < A.kept r → f ((A.chain r).idx (.red s i m)) 0 = false) :
    x.mem (A.scratchbuff r + A.cell s (partOffset (A.cnt s) A.redSlices m + j)) =
      A.held r s (partOffset (A.cnt s) A.redSlices m + j) i :=
  h.run_mem s hs m hm j hj i hi (fun h0 => (hred _ (by omega)).symm.trans (h1 h0)) fun hlt =>
    (hred i hlt).symm.trans (h2 hlt)

/-! ## What comes before an operation -/

theorem numOps_p2p (A : TreeReduce α) (r s i : Nat) : (A.ops r (.p2p s i)).numOps = 1 := by
  unfold ops
  dsimp only
  split_ifs <;> rfl

theorem p2p_before_red {f : Nat → Nat → Bool} (hs : s < A.slices) (hi : i < A.recvs r) (hm : m < A.redSlices)
    (hready : LocalReady (A.dag r) f ((A.chain r).idx (.red s i m))) :
    f ((A.chain r).idx (.p2p s i)) 0 = true := by
  have hmem := (A.chain r).red_mem_slots.1 (red_slot.2 ⟨hs, hi, hm⟩)
  exact (A.wired r).p2p_fired_of_red hmem.1 hmem.2.1 hmem.2.2 hready (by rw [numOps_p2p]; exact zero_lt_one)

section Before

variable {f : Nat → Nat → Bool} (hclosed : Closed (A.dag r) f)
include hclosed

theorem red_before {i' : Nat} (hslot : .p2p s i ∈ (A.chain r).slots)
    (hready : LocalReady (A.dag r) f ((A.chain r).idx (.p2p s i))) (hlt : i' < i) (hi' : i' < A.recvs r)
    (hm : m < A.redSlices) : f ((A.chain r).idx (.red s i' m)) 0 = true := by
  obtain ⟨hs, hi⟩ := (A.chain r).p2p_mem_slots.1 hslot
  have hmem := (A.chain r).red_mem_slots.1 (red_slot.2 ⟨hs, hi', hm⟩)
  exact (A.wired r).red_fired hclosed hs hi hready hlt hmem.2.2

theorem red_before_red {i' m' : Nat} (hs : s < A.slices) (hi : i < A.recvs r) (hm : m < A.redSlices)
    (hm' : m' < A.redSlices) (hfired : f ((A.chain r).idx (.red s i m)) 0 = true) (hlt : i' < i) :
    f ((A.chain r).idx (.red s i' m')) 0 = true := by
  have hmem := (A.chain r).red_mem_slots.1 (red_slot.2 ⟨hs, hi, hm⟩)
  have hmem' := (A.chain r).red_mem_slots.1 (red_slot.2 ⟨hs, show i' < A.recvs r by omega, hm'⟩)
  exact (A.wired r).red_fired_of_red hclosed hmem.1 hmem.2.1 hmem.2.2 hfired hlt hmem'.2.2

theorem p2p_before {s' i' : Nat} (hslot : .p2p s i ∈ (A.chain r).slots)
    (hready : LocalReady (A.dag r) f ((A.chain r).idx (.p2p s i))) (hs' : s' < A.slices)
    (hlt : i' < i ∨ i' = i ∧ s' < s) : f ((A.chain r).idx (.p2p s' i')) 0 = true := by
  obtain ⟨hs, hi⟩ := (A.chain r).p2p_mem_slots.1 hslot
  have hpos : Pos.of (A.chain r) s' i' < Pos.of (A.chain r) s i := by
    rcases hlt with hlt | ⟨rfl, hlt⟩
    · exact Pos.lt_of_step_lt hs' hlt
    · unfold Pos.of
      omega
  exact (A.wired r).p2p_fired hclosed hs hi hready hs' hpos (by omega) (by rw [numOps_p2p]; exact zero_lt_one)

theorem red_open {i' m' : Nat} (hs : s < A.slices) (hi' : i' < A.recvs r) (hm : m < A.redSlices) (hm' : m' < A.redSlices)
    (hopen : f ((A.chain r).idx (.red s i m)) 0 = false) (hle : i < i') :
    f ((A.chain r).idx (.red s i' m')) 0 = false := by
  by_contra hno
  have hfired := red_before_red hclosed hs hi' hm' hm (by simpa using hno) hle
  rw [hopen] at hfired
  cases hfired

end Before

section Counts

variable {x : RankState α} (hclosed : Closed (A.dag r) x.fired)
include hclosed

theorem Own.recvd_eq (h : A.Own r x) (hr : r < A.nranks) (hs : s < A.slices) (hi : i < A.recvs r)
    (hready : LocalReady (A.dag r) x.fired ((A.chain r).idx (.p2p s i)))
    (hfresh : x.fired ((A.chain r).idx (.p2p s i)) 0 = false) : s = x.recvd (A.child r i) := by
  have hslot := (p2p_slot hr).2 ⟨hs, .inl hi⟩
  rw [h.recvd s hs i hi, decide_eq_false_iff_not] at hfresh
  rcases eq_zero_or_pos s with h0 | hpos
  · omega
  · have hprev := p2p_before hclosed hslot hready (show s - 1 < A.slices by omega) (.inr ⟨rfl, by omega⟩)
    rw [h.recvd (s - 1) (by omega) i hi, decide_eq_true_iff] at hprev
    omega

theorem Own.sent_eq (h : A.Own r x) (hr : r < A.nranks) (hs : s < A.slices) (hne : r ≠ A.root)
    (hready : LocalReady (A.dag r) x.fired ((A.chain r).idx (.p2p s (A.recvs r))))
    (hfresh : x.fired ((A.chain r).idx (.p2p s (A.recvs r))) 0 = false) : s = x.sent (A.parent r) := by
  have hslot := (p2p_slot hr).2 ⟨hs, .inr ⟨rfl, hne⟩⟩
  rw [h.sent hne s hs, decide_eq_false_iff_not] at hfresh
  rcases eq_zero_or_pos s with h0 | hpos
  · omega
  · have hprev := p2p_before hclosed hslot hready (show s - 1 < A.slices by omega) (.inr ⟨rfl, by omega⟩)
    rw [h.sent hne (s - 1) (by omega), decide_eq_true_iff] at hprev
    omega

end Counts

/-! ## Operations -/

section Operations

variable {x y : RankState α} (h : A.Own r x) (hclosed : Closed (A.dag r) x.fired) (hr : r < A.nranks) (hs : s < A.slices)
include h hclosed hr hs

section

variable (hne : r ≠ A.root) (hready : LocalReady (A.dag r) x.fired ((A.chain r).idx (.p2p s (A.recvs r))))
include hne hready

/-- **A send carries the value of the rank.** -/
theorem Own.read :
    readAt x.mem ((if A.recvs r = 0 then A.sendbuff r else A.scratchbuff r) + A.cell s 0) (A.cnt s) = A.message r s := by
  have hslot := (p2p_slot hr).2 ⟨hs, .inr ⟨rfl, hne⟩⟩
  refine map_congr_left fun k hk => ?_
  rw [mem_range] at hk
  obtain ⟨m, hm, j, hj, rfl⟩ : ∃ m < A.redSlices, ∃ j < partCount (A.cnt s) A.redSlices m,
      k = partOffset (A.cnt s) A.redSlices m + j := exists_part A.redSlices_pos hk
  have hcell : ∀ b k, b + A.cell s 0 + k = b + A.cell s k := by
    intro b k
    unfold cell
    omega
  rw [hcell]
  split_ifs with h0
  · rw [h.send_mem s hs m hm j hj fun hroot _ => absurd hroot hne, h0, acc, rank_algo hr]
  · have hkept : A.kept r = A.recvs r := if_neg hne
    have hred := red_before hclosed hslot hready (show A.recvs r - 1 < A.recvs r by omega) (by omega) hm
    rw [h.run_mem s hs m hm j hj (A.recvs r) hkept.ge (fun _ => hred) fun hlt => by omega, held, if_neg h0]

theorem Own.send (hfresh : x.fired ((A.chain r).idx (.p2p s (A.recvs r))) 0 = false) (hf : y.fired = x.fired)
    (hy : y.mem = x.mem) (hsent : y.sent = update x.sent (A.parent r) (x.sent (A.parent r) + 1))
    (hrecvd : y.recvd = x.recvd) : A.Own r (y.mark ((A.chain r).idx (.p2p s (A.recvs r))) 0) := by
  have hslot := (p2p_slot hr).2 ⟨hs, .inr ⟨rfl, hne⟩⟩
  have hnext := h.sent_eq hclosed hr hs hne hready hfresh
  have hred := fun s' (hs' : s' < A.slices) i' (hi' : i' < A.recvs r) m' (hm' : m' < A.redSlices) =>
    Wired.mark_other (k := 0) hf hslot (red_slot.2 ⟨hs', hi', hm'⟩) 0 (by simp)
  have hp2p : ∀ s' < A.slices, ∀ i' < A.recvs r,
      (y.mark ((A.chain r).idx (.p2p s (A.recvs r))) 0).fired ((A.chain r).idx (.p2p s' i')) 0 =
        x.fired ((A.chain r).idx (.p2p s' i')) 0 := by
    intro s' hs' i' hi'
    rw [Wired.mark_fired hslot ((p2p_slot hr).2 ⟨hs', .inl hi'⟩), if_neg, hf]
    rintro ⟨he, -⟩
    have := (Slot.p2p.inj he).2
    omega
  have hle := A.kept_le hr
  refine ⟨fun s' hs' i' hi' => ?_, fun _ s' hs' => ?_, fun s' hs' m' hm' j hj i' hi' h1 h2 => ?_,
    fun s' hs' m' hm' j hj i' hi' h1 h2 => ?_, fun s' hs' m' hm' j hj hopen => ?_, fun hroot => absurd hroot hne⟩
  · rw [hp2p s' hs' i' hi', h.recvd s' hs' i' hi']
    show _ = decide (_ < y.recvd _)
    rw [hrecvd]
  · rw [Wired.mark_fired hslot ((p2p_slot hr).2 ⟨hs', .inr ⟨rfl, hne⟩⟩), hf, h.sent hne s' hs', Bool.eq_iff_iff]
    show _ ↔ decide (_ < y.sent _) = true
    rw [hsent, update_self, decide_eq_true_iff]
    split_ifs with he
    · obtain ⟨rfl, -⟩ := Slot.p2p.inj he.1
      exact iff_of_true rfl (by omega)
    · rw [decide_eq_true_iff]
      have hne' : s' ≠ s := fun hss => he ⟨by rw [hss], rfl⟩
      omega
  · show y.mem _ = _
    rw [hy]
    exact h.run_of_eq hs' hm' hj hi' (fun l hl => hred s' hs' l (by omega) m' hm') h1 h2
  · show y.mem _ = _
    rw [hy]
    refine h.got_mem s' hs' m' hm' j hj i' hi' ?_ ?_
    · rw [← hp2p s' hs' i' hi']
      exact h1
    · rw [← hred s' hs' i' hi' m' hm']
      exact h2
  · show y.mem _ = _
    rw [hy]
    exact h.send_mem s' hs' m' hm' j hj fun hroot => absurd hroot hne

end

theorem Own.recv (hi : i < A.recvs r) (hready : LocalReady (A.dag r) x.fired ((A.chain r).idx (.p2p s i)))
    (hfresh : x.fired ((A.chain r).idx (.p2p s i)) 0 = false) (hf : y.fired = x.fired)
    (hy : y.mem = writeAt x.mem (A.scratchbuff r + A.count + A.cell s 0) (A.cnt s) fun j =>
      (A.message (A.child r i) (x.recvd (A.child r i))).getD j (x.mem (A.scratchbuff r + A.count + A.cell s 0 + j)))
    (hsent : y.sent = x.sent)
    (hrecvd : y.recvd = update x.recvd (A.child r i) (x.recvd (A.child r i) + 1)) :
    A.Own r (y.mark ((A.chain r).idx (.p2p s i)) 0) := by
  have hslot := (p2p_slot hr).2 ⟨hs, .inl hi⟩
  have hnext := h.recvd_eq hclosed hr hs hi hready hfresh
  have hlen : 0 + A.cnt s ≤ A.cnt s := (zero_add _).le
  rw [← hnext, message_child hr hi] at hy
  have hred := fun s' (hs' : s' < A.slices) i' (hi' : i' < A.recvs r) m' (hm' : m' < A.redSlices) =>
    Wired.mark_other (k := 0) hf hslot (red_slot.2 ⟨hs', hi', hm'⟩) 0 (by simp)
  have hp2p := fun s' (hs' : s' < A.slices) i' (hi' : i' < A.recvs r) =>
    Wired.mark_p2p (k := 0) hf hslot ((p2p_slot hr).2 ⟨hs', .inl hi'⟩)
  have hle := A.kept_le hr
  refine ⟨fun s' hs' i' hi' => ?_, fun hne s' hs' => ?_, fun s' hs' m' hm' j hj i' hi' h1 h2 => ?_,
    fun s' hs' m' hm' j hj i' hi' h1 h2 => ?_, fun s' hs' m' hm' j hj hopen => ?_, fun hroot s' hs' m' hm' j hj => ?_⟩
  · rw [hp2p s' hs' i' hi', h.recvd s' hs' i' hi', Bool.eq_iff_iff]
    show _ ↔ decide (_ < y.recvd _) = true
    rw [hrecvd, decide_eq_true_iff]
    by_cases hstep : i' = i
    · subst hstep
      rw [update_self]
      split_ifs with he
      · exact iff_of_true rfl (by omega)
      · rw [decide_eq_true_iff]
        omega
    · rw [update_of_ne fun he => hstep (child_inj hr hi' hi he), if_neg fun he => hstep he.2,
        decide_eq_true_iff]
  · rw [Wired.mark_fired hslot ((p2p_slot hr).2 ⟨hs', .inr ⟨rfl, hne⟩⟩), if_neg, hf, h.sent hne s' hs']
    · show _ = decide (_ < y.sent _)
      rw [hsent]
    · rintro ⟨he, -⟩
      have := (Slot.p2p.inj he).2
      omega
  · show y.mem _ = _
    rw [hy, write_apart hs hs' (part_lt hm' hj) hlen (.inr le_rfl)]
    exact h.run_of_eq hs' hm' hj hi' (fun l hl => hred s' hs' l (by omega) m' hm') h1 h2
  · -- an element that was received before is not overwritten unless it has been reduced
    show y.mem _ = _
    rw [hred s' hs' i' hi' m' hm'] at h2
    rw [hp2p s' hs' i' hi'] at h1
    have hk := part_lt hm' hj
    rw [hy, write_cell hk hlen]
    by_cases hslice : s' = s
    · subst hslice
      have hstep : i' = i := by
        by_contra hne
        rw [if_neg fun he => hne he.2] at h1
        rcases Nat.lt_or_gt_of_ne hne with hlt | hgt
        · rw [red_before hclosed hslot hready hlt hi' hm'] at h2
          cases h2
        · have hearlier := p2p_before hclosed ((p2p_slot hr).2 ⟨hs, .inl hi'⟩) (hclosed _ _ h1) hs (.inl hgt)
          rw [hfresh] at hearlier
          cases hearlier
      subst hstep
      simp [getD_eq_getElem?_getD, hk]
    · rw [if_neg fun he => hslice he.1]
      rw [if_neg fun he => hslice he.1] at h1
      exact h.got_mem s' hs' m' hm' j hj i' hi' h1 h2
  · show y.mem _ = _
    have hapart := A.scratch_apart r hr
    rw [hy, write_apart hs hs' (part_lt hm' hj) hlen (by omega)]
    refine h.send_mem s' hs' m' hm' j hj fun hroot hplace => ?_
    subst hroot
    have hpos := A.steps_pos
    rw [← hred s' hs' (A.steps - 1) (by rw [recvs_root]; omega) m' hm']
    exact hopen rfl hplace
  · show y.mem _ = _
    subst hroot
    have hapart := A.recv_apart
    have hpos := A.steps_pos
    rw [hy, write_apart hs hs' (part_lt hm' hj) hlen (by omega), h.recv_mem rfl s' hs' m' hm' j hj,
      hred s' hs' (A.steps - 1) (by rw [recvs_root]; omega) m' hm']

section

variable (hi : i < A.recvs r) (hm : m < A.redSlices) (hready : LocalReady (A.dag r) x.fired ((A.chain r).idx (.red s i m)))
  (hfresh : x.fired ((A.chain r).idx (.red s i m)) 0 = false)
include hi hm hready hfresh

theorem Own.read_red (hj : j < partCount (A.cnt s) A.redSlices m) :
    x.mem (A.scratchbuff r + A.count + A.cell s (partOffset (A.cnt s) A.redSlices m + j)) =
      A.acc s (partOffset (A.cnt s) A.redSlices m + j) i (A.algo r + 2 ^ i) ∧
    x.mem ((if i = 0 then A.sendbuff r else A.scratchbuff r) + A.cell s (partOffset (A.cnt s) A.redSlices m + j)) =
      A.acc s (partOffset (A.cnt s) A.redSlices m + j) i (A.algo r) := by
  have hp2p := p2p_before_red hs hi hm hready
  refine ⟨h.got_mem s hs m hm j hj i hi hp2p hfresh, ?_⟩
  split_ifs with h0
  · subst h0
    rw [acc, rank_algo hr]
    refine h.send_mem s hs m hm j hj fun hroot _ => ?_
    rcases eq_zero_or_pos (A.steps - 1) with hzero | hlater
    · rw [hzero]
      exact hfresh
    · subst hroot
      exact red_open hclosed hs (by rw [recvs_root]; omega) hm hm hfresh hlater
  · have hslot := (p2p_slot hr).2 ⟨hs, .inl hi⟩
    have hred := red_before hclosed hslot (hclosed _ _ hp2p) (show i - 1 < i by omega) (by omega) hm
    have hkept : i ≤ A.kept r := by
      unfold kept
      split_ifs with hroot
      · subst hroot
        rw [recvs_root] at hi
        omega
      · exact hi.le
    rw [h.run_mem s hs m hm j hj i hkept (fun _ => hred) fun _ => hfresh, held, if_neg h0]

theorem Own.red (hf : y.fired = x.fired)
    (hy : y.mem = writeAt x.mem ((if i = A.steps - 1 then A.recvbuff r else A.scratchbuff r) + A.cell s (partOffset (A.cnt s) A.redSlices m)) (triggerCount (partCount (A.cnt s) A.redSlices m)) fun j => A.op (x.mem (A.scratchbuff r + A.count + A.cell s (partOffset (A.cnt s) A.redSlices m) + j)) (x.mem ((if i = 0 then A.sendbuff r else A.scratchbuff r) + A.cell s (partOffset (A.cnt s) A.redSlices m) + j)))
    (hsent : y.sent = x.sent) (hrecvd : y.recvd = x.recvd) : A.Own r (y.mark ((A.chain r).idx (.red s i m)) 0) := by
  have hslot := red_slot.2 ⟨hs, hi, hm⟩
  have htrigger := triggerCount_le_self (partCount (A.cnt s) A.redSlices m)
  have hpart := @partOffset_add_le (A.cnt s) _ _ hm
  have hpos := A.steps_pos
  have hkept := lt_kept_iff hr hi
  have hred := fun s' (hs' : s' < A.slices) i' (hi' : i' < A.recvs r) m' (hm' : m' < A.redSlices) =>
    Wired.mark_red hf hslot (red_slot.2 ⟨hs', hi', hm'⟩)
  have hp2p := fun s' i' (hslot' : .p2p s' i' ∈ (A.chain r).slots) =>
    Wired.mark_other (k := 0) hf hslot hslot' 0 (by simp)
  -- the value of the reduction
  have hresult : ∀ j < triggerCount (partCount (A.cnt s) A.redSlices m), A.op
      (x.mem (A.scratchbuff r + A.count + A.cell s (partOffset (A.cnt s) A.redSlices m) + j))
      (x.mem ((if i = 0 then A.sendbuff r else A.scratchbuff r) + A.cell s (partOffset (A.cnt s) A.redSlices m) + j)) =
      A.acc s (partOffset (A.cnt s) A.redSlices m + j) (i + 1) (A.algo r) := by
    intro j hj
    have hcell : ∀ b, b + A.cell s (partOffset (A.cnt s) A.redSlices m) + j =
        b + A.cell s (partOffset (A.cnt s) A.redSlices m + j) := by
      intro b
      unfold cell
      omega
    have hj' : j < partCount (A.cnt s) A.redSlices m := by omega
    obtain ⟨h₁, h₂⟩ := h.read_red hclosed hr hs hi hm hready hfresh hj'
    rw [hcell, hcell, h₁, h₂, acc, if_pos ((A.lt_recvs_iff r i).1 hi), if_pos ((triggered_part hm hj').2 hj)]
  have hrecvd' : ∀ s' < A.slices, ∀ i' < A.recvs r,
      (y.mark ((A.chain r).idx (.red s i m)) 0).fired ((A.chain r).idx (.p2p s' i')) 0 =
        decide (s' < (y.mark ((A.chain r).idx (.red s i m)) 0).recvd (A.child r i')) := by
    intro s' hs' i' hi'
    rw [hp2p s' i' ((p2p_slot hr).2 ⟨hs', .inl hi'⟩), h.recvd s' hs' i' hi']
    show _ = decide (_ < y.recvd _)
    rw [hrecvd]
  have hsent' : r ≠ A.root → ∀ s' < A.slices,
      (y.mark ((A.chain r).idx (.red s i m)) 0).fired ((A.chain r).idx (.p2p s' (A.recvs r))) 0 =
        decide (s' < (y.mark ((A.chain r).idx (.red s i m)) 0).sent (A.parent r)) := by
    intro hne s' hs'
    rw [hp2p s' _ ((p2p_slot hr).2 ⟨hs', .inr ⟨rfl, hne⟩⟩), h.sent hne s' hs']
    show _ = decide (_ < y.sent _)
    rw [hsent]
  have hkeptle := A.kept_le hr
  have hrun : ∀ s' < A.slices, ∀ m' < A.redSlices, (∀ l < A.kept r, ¬ (s' = s ∧ l = i ∧ m' = m)) → ∀ l < A.kept r,
      (y.mark ((A.chain r).idx (.red s i m)) 0).fired ((A.chain r).idx (.red s' l m')) 0 =
        x.fired ((A.chain r).idx (.red s' l m')) 0 := by
    intro s' hs' m' hm' hno l hl
    rw [hred s' hs' l (by omega) m' hm', if_neg (hno l hl)]
  -- what was received is not written
  have hgot : ∀ s' < A.slices, ∀ m' < A.redSlices, ∀ j < partCount (A.cnt s') A.redSlices m', ∀ i' < A.recvs r,
      (y.mark ((A.chain r).idx (.red s i m)) 0).fired ((A.chain r).idx (.p2p s' i')) 0 = true →
      (y.mark ((A.chain r).idx (.red s i m)) 0).fired ((A.chain r).idx (.red s' i' m')) 0 = false →
      y.mem (A.scratchbuff r + A.count + A.cell s' (partOffset (A.cnt s') A.redSlices m' + j)) =
        A.acc s' (partOffset (A.cnt s') A.redSlices m' + j) i' (A.algo r + 2 ^ i') := by
    intro s' hs' m' hm' j hj i' hi' h1 h2
    rw [hp2p s' i' ((p2p_slot hr).2 ⟨hs', .inl hi'⟩)] at h1
    rw [hred s' hs' i' hi' m' hm'] at h2
    rw [hy, write_apart hs hs' (part_lt hm' hj) (by omega)]
    · split_ifs at h2 with he
      exact h.got_mem s' hs' m' hm' j hj i' hi' h1 h2
    · split_ifs with hlast
      · have hroot := eq_root_of_last hr hi hlast
        have hrapart := A.recv_apart
        subst hroot
        omega
      · exact .inl le_rfl
  by_cases hlast : i = A.steps - 1
  · -- the last reductions of the root
    have hroot := eq_root_of_last hr hi hlast
    subst hroot
    have hrapart := A.recv_apart
    rw [if_pos hlast] at hy
    refine ⟨hrecvd', hsent', fun s' hs' m' hm' j hj i' hi' h1 h2 => ?_, hgot, fun s' hs' m' hm' j hj hopen => ?_,
      fun _ s' hs' m' hm' j hj => ?_⟩
    · show y.mem _ = _
      rw [hy, write_apart hs hs' (part_lt hm' hj) (by omega) (by omega)]
      exact h.run_of_eq hs' hm' hj hi' (hrun s' hs' m' hm' fun l hl he => hkept.1 (he.2.1 ▸ hl) hlast) h1 h2
    · show y.mem _ = _
      have hlt : A.steps - 1 < A.recvs A.root := by rw [recvs_root]; omega
      have hk := part_lt hm' hj
      have hstill : (A.recvbuff A.root = A.sendbuff A.root →
          x.fired ((A.chain A.root).idx (.red s' (A.steps - 1) m')) 0 = false) := by
        intro hplace
        have hfired := hopen rfl hplace
        rw [hred s' hs' _ hlt m' hm'] at hfired
        split_ifs at hfired
        exact hfired
      have hmem := h.send_mem s' hs' m' hm' j hj fun _ => hstill
      rcases A.placed with hplace | hplace
      · rw [hy, hplace, write_cell hk (by omega), if_neg, hmem]
        rintro ⟨hss, h1, h2⟩
        have hfired := hopen rfl hplace
        rw [hred s' hs' _ hlt m' hm', if_pos ⟨hss, hlast.symm, part_of_written (congrArg A.cnt hss) hj h1 h2⟩] at hfired
        cases hfired
      · rw [hy, write_apart hs hs' hk (by omega) hplace, hmem]
    · show y.mem _ = _
      have hlt : A.steps - 1 < A.recvs A.root := by rw [recvs_root]; omega
      have hk := part_lt hm' hj
      rw [hy, write_cell hk (by omega), hred s' hs' _ hlt m' hm']
      by_cases hpiece : s' = s ∧ m' = m
      · obtain ⟨rfl, rfl⟩ := hpiece
        rw [if_pos (show s' = s' ∧ A.steps - 1 = i ∧ m' = m' from ⟨rfl, hlast.symm, rfl⟩)]
        by_cases hj' : j < triggerCount (partCount (A.cnt s') A.redSlices m')
        · rw [if_pos ⟨rfl, by omega, by omega⟩, Nat.add_sub_cancel_left, hresult j hj', if_pos ⟨rfl, hj'⟩,
            show i + 1 = A.steps by omega, (algo_eq_zero_iff hr).2 rfl]
        · rw [if_neg (by omega), h.recv_mem rfl s' hs' m' hm' j hj, if_neg fun hno => hj' hno.2,
            if_neg fun hno => hj' hno.2]
      · have hno : ¬ (s' = s ∧ A.steps - 1 = i ∧ m' = m) := fun he => hpiece ⟨he.1, he.2.2⟩
        rw [if_neg hno, if_neg fun he => hpiece ⟨he.1, part_of_written (congrArg A.cnt he.1) hj he.2.1 he.2.2⟩,
          h.recv_mem rfl s' hs' m' hm' j hj]
  · -- reductions into the scratch buffer
    have hik := hkept.2 hlast
    have hapart := A.scratch_apart r hr
    rw [if_neg hlast] at hy
    refine ⟨hrecvd', hsent', fun s' hs' m' hm' j hj i' hi' h1 h2 => ?_, hgot, fun s' hs' m' hm' j hj hopen => ?_,
      fun hroot s' hs' m' hm' j hj => ?_⟩
    · show y.mem _ = _
      have hk := part_lt hm' hj
      rw [hy, write_cell hk (by omega)]
      by_cases hpiece : s' = s ∧ m' = m
      · obtain ⟨rfl, rfl⟩ := hpiece
        -- the reductions performed are those up to this one
        have hlevel : i' = i + 1 := by
          rcases lt_trichotomy i' i with hlt | rfl | hgt
          · have hopen := h2 (by omega)
            have hearlier := red_before hclosed ((p2p_slot hr).2 ⟨hs, .inl hi⟩)
              (hclosed _ _ (p2p_before_red hs hi hm hready)) hlt (by omega) hm
            rw [hred s' hs i' (by omega) m' hm, if_neg (by omega), hearlier] at hopen
            cases hopen
          · have hopen := h2 hik
            rw [hred s' hs i' hi m' hm, if_pos ⟨rfl, rfl, rfl⟩] at hopen
            cases hopen
          · by_contra hne
            have hfired := h1 (by omega)
            rw [hred s' hs (i' - 1) (by omega) m' hm, if_neg (by omega),
              red_open hclosed hs (by omega) hm hm hfresh (show i < i' - 1 by omega)] at hfired
            cases hfired
        subst hlevel
        by_cases hj' : j < triggerCount (partCount (A.cnt s') A.redSlices m')
        · rw [if_pos ⟨rfl, by omega, by omega⟩, Nat.add_sub_cancel_left, hresult j hj', held, if_neg (Nat.succ_ne_zero i)]
        · -- what the trigger leaves out
          have hnot : ¬ Triggered (A.cnt s') A.redSlices (partOffset (A.cnt s') A.redSlices m' + j) := fun ht =>
            hj' ((triggered_part hm hj).1 ht)
          have hbefore : 0 < i → x.fired ((A.chain r).idx (.red s' (i - 1) m')) 0 = true := fun h0 =>
            red_before hclosed ((p2p_slot hr).2 ⟨hs, .inl hi⟩) (hclosed _ _ (p2p_before_red hs hi hm hready))
              (show i - 1 < i by omega) (by omega) hm
          rw [if_neg (by omega), h.run_mem s' hs m' hm j hj i hik.le hbefore fun _ => hfresh,
            held_of_not hr hnot hi.le, held_of_not hr hnot hi]
      · rw [if_neg fun he => hpiece ⟨he.1, part_of_written (congrArg A.cnt he.1) hj he.2.1 he.2.2⟩]
        exact h.run_of_eq hs' hm' hj hi' (hrun s' hs' m' hm' fun l _ he => hpiece ⟨he.1, he.2.2⟩) h1 h2
    · show y.mem _ = _
      rw [hy, write_apart hs hs' (part_lt hm' hj) (by omega) (by omega)]
      refine h.send_mem s' hs' m' hm' j hj fun hroot hplace => ?_
      subst hroot
      have hfired := hopen rfl hplace
      rwa [hred s' hs' _ (by rw [recvs_root]; omega) m' hm', if_neg fun he => hlast he.2.1.symm] at hfired
    · show y.mem _ = _
      subst hroot
      have hrapart := A.recv_apart
      have hno : ¬ (s' = s ∧ A.steps - 1 = i ∧ m' = m) := fun he => hlast he.2.1.symm
      rw [hy, write_apart hs hs' (part_lt hm' hj) (by omega) (by omega), h.recv_mem rfl s' hs' m' hm' j hj,
        hred s' hs' _ (by rw [recvs_root]; omega) m' hm', if_neg hno]

end

end Operations

/-! ## Runs -/

theorem ops_recv (hi : i < A.recvs r) : A.ops r (.p2p s i) =
    .p2p [⟨.recv, A.child r i, A.scratchbuff r + A.count + A.cell s 0, A.cnt s⟩] := if_pos hi

theorem ops_send (A : TreeReduce α) (r s : Nat) : A.ops r (.p2p s (A.recvs r)) =
    .p2p [⟨.send, A.parent r, (if A.recvs r = 0 then A.sendbuff r else A.scratchbuff r) + A.cell s 0, A.cnt s⟩] :=
  if_neg (lt_irrefl _)

theorem keeps (hr : r < A.nranks) : Keeps (A.dag r) A.op (fun p => A.message p) (fun _ => A.message r) (A.Own r) := by
  refine (A.wired r).keeps fun x hx hclosed c hc k hready hfresh => ?_
  cases c with
  | p2p s i =>
    obtain ⟨hs, hi | ⟨rfl, hne⟩⟩ := (p2p_slot hr).1 hc
    · rw [ops_recv hi]
      match k with
      | 0 =>
        refine ⟨fun peer addr count hop => ?_, fun x' hx' => ?_⟩
        · cases hop
        · cases hx'
          exact hx.recv hclosed hr hs hi hready hfresh rfl rfl rfl rfl
      | k + 1 => exact ⟨nofun, nofun⟩
    · rw [ops_send]
      match k with
      | 0 =>
        have hread := hx.read hclosed hr hs hne hready
        have hnext := hx.sent_eq hclosed hr hs hne hready hfresh
        refine ⟨fun peer addr count hop => ?_, fun x' hx' => ?_⟩
        · cases hop
          rw [← hnext]
          exact hread
        · cases hx'
          exact hx.send hclosed hr hs hne hready hfresh rfl rfl rfl rfl
      | k + 1 => exact ⟨nofun, nofun⟩
  | red s i m =>
    obtain ⟨hs, hi, hm⟩ := red_slot.1 hc
    match k with
    | 0 =>
      refine ⟨trivial, fun x' hx' => ?_⟩
      cases hx'
      exact hx.red hclosed hr hs hi hm hready hfresh rfl rfl rfl rfl
    | k + 1 => exact ⟨trivial, nofun⟩

variable (A)

theorem own_start (r : Nat) : A.Own r ⟨fun _ _ => false, A.init r, fun _ => 0, fun _ => 0⟩ := by
  refine ⟨fun _ _ _ _ => rfl, fun _ _ _ => rfl, fun s _ m _ j _ i _ h1 _ => ?_, fun _ _ _ _ _ _ _ _ h1 => ?_,
    fun _ _ _ _ _ _ _ => rfl, fun _ _ _ _ _ _ _ => (if_neg nofun).symm⟩
  · rcases eq_zero_or_pos i with rfl | hpos
    · rfl
    · cases h1 hpos
  · cases h1

/-- When the operation of a slot can be performed: a send comes before the receive of the same step. -/
def slotTime (r : Nat) : Slot → Nat
  | .p2p s i => if i < A.recvs r then 3 * (i * A.slices) + A.slices + s else 3 * (ctz (A.algo r) * A.slices) + s
  | .red s i _ => 3 * (i * A.slices) + 2 * A.slices + s

def time (r u _k : Nat) : Nat := ((A.chain r).slots[u]?.map (A.slotTime r)).getD 0

variable {A}

theorem time_idx {c : Slot} (hc : c ∈ (A.chain r).slots) : A.time r ((A.chain r).idx c) k = A.slotTime r c := by
  have hget : (A.chain r).slots[(A.chain r).idx c]? = some c := (A.chain r).numbering.getElem?_idx hc
  rw [time, hget]
  rfl

theorem recvs_le_ctz (hr : r < A.nranks) (hne : r ≠ A.root) : A.recvs r ≤ ctz (A.algo r) := by
  by_contra hlt
  have hpos : 0 < A.algo r := pos_of_ne_zero fun h => hne ((algo_eq_zero_iff hr).1 h)
  have hchild := (A.lt_recvs_iff r _).1 (Nat.lt_of_not_le hlt)
  have := (pow_dvd_iff_le_ctz hpos).1 hchild.1
  omega

theorem slotTime_lt (hr : r < A.nranks) {p c : Slot} (hp : p ∈ (A.chain r).slots) (hc : c ∈ (A.chain r).slots)
    (hpar : p ∈ (A.chain r).parents c) : A.slotTime r p < A.slotTime r c := by
  cases c with
  | red s i m =>
    obtain ⟨hs, hi, hm⟩ := red_slot.1 hc
    rw [Pipeline.parents, mem_singleton] at hpar
    subst hpar
    rw [slotTime, slotTime, if_pos hi]
    omega
  | p2p s i =>
    obtain ⟨hs, hi⟩ := (p2p_slot hr).1 hc
    -- the transfer comes after all of its step's predecessor
    have hlater : ∀ i', i = i' + 1 → 3 * (i' * A.slices) + 2 * A.slices + s < A.slotTime r (.p2p s i) := by
      rintro i' rfl
      have hmul : (i' + 1) * A.slices = i' * A.slices + A.slices := Nat.succ_mul _ _
      rw [slotTime]
      split_ifs with hlt
      · omega
      · have hne : r ≠ A.root := by
          rcases hi with hi | hi
          · exact absurd hi hlt
          · exact hi.2
        have hle := recvs_le_ctz hr hne
        have hctz : (i' + 1) * A.slices ≤ ctz (A.algo r) * A.slices := Nat.mul_le_mul_right _ (by omega)
        omega
    rw [Pipeline.parents, mem_append] at hpar
    rcases hpar with hpar | hpar
    · unfold Pipeline.prev at hpar
      split_ifs at hpar with hs0 hi0
      · rw [mem_singleton] at hpar
        subst hpar
        rw [slotTime, slotTime]
        split_ifs <;> omega
      · rw [mem_singleton] at hpar
        subst hpar
        have hlt := hlater (i - 1) (by omega)
        have hslices : (A.chain r).slices = A.slices := rfl
        rw [slotTime, if_pos (by omega)]
        omega
      · cases hpar
    · split_ifs at hpar with hi0
      · obtain ⟨m, -, rfl⟩ := (A.chain r).mem_redsOf.1 hpar
        exact hlater (i - 1) (by omega)
      · cases hpar

theorem timed (A : TreeReduce α) : Timed A.nranks A.dag A.Own A.time := by
  constructor
  · rintro r hr v u hv k' k ⟨node', hnode', -⟩ ⟨node, hnode, -⟩
    obtain ⟨c, hc, rfl, -⟩ := (A.wired r).slot_of_node hnode
    obtain ⟨p, hpar, rfl⟩ := ((A.wired r).edge_iff hc).1 hv
    have hp := (A.chain r).parents_mem hc hpar
    rw [time_idx hp, time_idx hc]
    exact slotTime_lt hr hp hc hpar
  · intro r hr x hx hclosed u k node ops peer addr count hnode hd hop hready hfresh
    obtain ⟨c, hc, rfl, hdata⟩ := (A.wired r).slot_of_node hnode
    rw [hdata] at hd
    cases c with
    | red s i m => cases hd
    | p2p s i =>
      obtain ⟨hs, hi | ⟨rfl, -⟩⟩ := (p2p_slot hr).1 hc
      · rw [ops_recv hi] at hd
        cases hd
        match k, hop with
        | 0, hop =>
          cases hop
          refine ⟨A.child_lt r i, fun y hy hall => ?_⟩
          have hnext := hx.recvd_eq hclosed hr hs hi hready hfresh
          have hne := child_ne_root hr hi
          have hslot := (p2p_slot (A.child_lt r i)).2 ⟨hs, .inr ⟨rfl, hne⟩⟩
          obtain ⟨node', hnode', hdata'⟩ := (A.wired (A.child r i)).node_of_slot hslot
          have hctz : ctz (A.algo (A.child r i)) = i := by
            rw [algo_child hr hi]
            exact ctz_add_pow ((A.lt_recvs_iff r i).1 hi).1
          have hsent := hall _ 0 ⟨node', hnode', by rw [hdata', numOps_p2p]; exact zero_lt_one⟩ (by
            rw [time_idx hslot, time_idx hc, slotTime, slotTime, if_neg (lt_irrefl _), if_pos hi, hctz]
            omega)
          rw [hy.sent hne s hs, parent_child hr hi, decide_eq_true_iff] at hsent
          omega
        | k + 1, hop => cases hop
      · rw [ops_send] at hd
        cases hd
        match k, hop with
        | 0, hop => cases hop
        | k + 1, hop => cases hop

variable (A)

def Ends (w : World α) : Prop := Run A.nranks A.dag A.op (World.start A.init) w ∧ Complete A.nranks A.dag w

variable {A} {w : World α}

/-- **From every reachable world the ranks can finish.** -/
theorem exists_finish (h : Run A.nranks A.dag A.op (World.start A.init) w) :
    ∃ w', Run A.nranks A.dag A.op w w' ∧ Complete A.nranks A.dag w' :=
  exists_complete_of_times (M := fun a _ => A.message a) (L := A.Own) (fun _ hr => A.keeps hr) A.timed
    (fun r _ => A.own_start r) h

theorem closed_of_run (h : Run A.nranks A.dag A.op (World.start A.init) w) (hr : r < A.nranks) :
    Closed (A.dag r) (w.fired r) := by
  obtain ⟨sent, recvd, hsplit⟩ := splits_of_run (M := fun a _ => A.message a) (L := A.Own) (fun _ hr => A.keeps hr)
    (fun r _ => A.own_start r) h
  exact hsplit.closed r hr

theorem Ends.value (h : A.Ends w) (hs : s < A.slices) (hk : k < A.cnt s) :
    w.mem A.root (A.recvbuff A.root + A.cell s k) =
      if Triggered (A.cnt s) A.redSlices k then A.acc s k A.steps 0
      else A.init A.root (A.recvbuff A.root + A.cell s k) := by
  have hpos := A.steps_pos
  have hr := A.root_lt
  obtain ⟨sent, recvd, hsplit⟩ := splits_of_run (M := fun a _ => A.message a) (L := A.Own) (fun _ hr => A.keeps hr)
    (fun r _ => A.own_start r) h.1
  obtain ⟨m, hm, j, hj, rfl⟩ := exists_part A.redSlices_pos hk
  have hslot : Slot.red s (A.steps - 1) m ∈ (A.chain A.root).slots := red_slot.2 ⟨hs, by rw [recvs_root]; omega, hm⟩
  have hdone := h.2.fired hr (A.wired A.root) hslot (k := 0) zero_lt_one
  have hmem : w.mem A.root _ = _ := (hsplit.own A.root hr).recv_mem rfl s hs m hm j hj
  have hfired : (w.rank sent recvd A.root).fired = w.fired A.root := rfl
  rw [hmem, hfired]
  refine if_congr ?_ rfl rfl
  rw [triggered_part hm hj, hdone]
  exact and_iff_right rfl

end TreeReduce

end FlagCX.UniRunner
