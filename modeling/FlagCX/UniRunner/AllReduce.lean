import FlagCX.UniRunner.Wired

/-!
# The ring AllReduce on all ranks

Every rank runs the DAG of `initUniRunnerStateRingAR`. At step `i` of the ring, rank `r` sends chunk `r - i` and
receives chunk `r - i - 1` (mod `nranks`); the chunk that started at rank `c` is, after `k` steps, the combination of
the contributions of the ranks `c`, …, `c + k`.

* `AllReduce`       : ranks, slices, buffers and initial memories.
* `AllReduce.wired` : the DAGs are pipelines of transfers and reductions.
* `AllReduce.acc`   : the value a chunk carries after `k` combinations.
-/

namespace FlagCX.UniRunner
open List

open Dag

/-- A ring AllReduce over element type `α`. Each rank's buffers coincide or do not overlap. -/
structure AllReduce (α : Type) where
  nranks : Nat
  numSlices : Nat
  count : Nat
  sendbuff : Nat → Nat
  recvbuff : Nat → Nat
  op : α → α → α
  init : Nat → Nat → α
  two_le : 2 ≤ nranks
  placed : ∀ r < nranks,
    sendbuff r = recvbuff r ∨ sendbuff r + count ≤ recvbuff r ∨ recvbuff r + count ≤ sendbuff r

namespace AllReduce

variable {α : Type} (A : AllReduce α)

def comm (r : Nat) : Comm := ⟨r, A.nranks⟩

def buffers (r : Nat) : Buffers := ⟨A.sendbuff r, A.recvbuff r, 0, A.count⟩

/-- The DAG rank `r` builds. -/
def dag (r : Nat) : List DagNode :=
  match initUniRunnerStateRingAR (A.comm r) (A.buffers r) A.numSlices with
  | .ok st => st.dagNodes
  | .error _ => []

abbrev StepRel : World α → World α → Prop := Step A.nranks A.dag A.op

abbrev RunRel : World α → World α → Prop := Run A.nranks A.dag A.op

abbrev pipe : Pipeline := phases A.numSlices (A.nranks - 1) (A.nranks - 1) 1

theorem dag_eq (r : Nat) : A.dag r = (ringARNodes (A.comm r) (A.buffers r) A.numSlices).map (·.node) := by
  have h : initUniRunnerStateRingAR (A.comm r) (A.buffers r) A.numSlices =
      .ok (ringAR (A.comm r) (A.buffers r) A.numSlices) := withRanks_ok A.two_le
  rw [dag, h]
  rfl

/-! ## Chunks and positions of the ring -/

/-- The chunk sent at step `i`. -/
def tx (r i : Nat) : Nat := (r + 2 * A.nranks - i) % A.nranks

/-- The chunk received at step `i`. -/
def rx (r i : Nat) : Nat := (r + 2 * A.nranks - 1 - i) % A.nranks

def next (r : Nat) : Nat := (r + 1) % A.nranks

def prev (r : Nat) : Nat := (r + A.nranks - 1) % A.nranks

/-- How far rank `r` is after the rank chunk `c` starts at. -/
def dist (r c : Nat) : Nat := if c ≤ r then r - c else r + A.nranks - c

def off (c s : Nat) : Nat := partOffset A.count A.nranks c + partOffset (partCount A.count A.nranks c) A.numSlices s

def cnt (c s : Nat) : Nat := partCount (partCount A.count A.nranks c) A.numSlices s

theorem mod_of_lt_three {n x : Nat} (h : x < 3 * n) :
    x % n = if x < n then x else if x < 2 * n then x - n else x - 2 * n := by
  split_ifs with h₁ h₂
  · exact Nat.mod_eq_of_lt h₁
  · rw [Nat.mod_eq_sub_mod (by omega), Nat.mod_eq_of_lt (by omega)]
  · rw [Nat.mod_eq_sub_mod (by omega), Nat.mod_eq_sub_mod (by omega), Nat.mod_eq_of_lt (by omega)]
    omega

theorem tx_lt (r i : Nat) : A.tx r i < A.nranks := Nat.mod_lt _ (by have := A.two_le; omega)

theorem rx_lt (r i : Nat) : A.rx r i < A.nranks := Nat.mod_lt _ (by have := A.two_le; omega)

theorem prev_lt (r : Nat) : A.prev r < A.nranks := Nat.mod_lt _ (by have := A.two_le; omega)

variable {r c : Nat}

theorem dist_lt (hr : r < A.nranks) (hc : c < A.nranks) : A.dist r c < A.nranks := by
  unfold dist
  split_ifs <;> omega

theorem eq_of_dist_eq_zero (hc : c < A.nranks) (h : A.dist r c = 0) : c = r := by
  unfold dist at h
  split_ifs at h <;> omega

variable {i : Nat}

section

variable (hr : r < A.nranks)
include hr

theorem tx_eq_iff (hc : c < A.nranks) (hi : i < 2 * (A.nranks - 1)) :
    A.tx r i = c ↔ i = A.dist r c ∨ i = A.dist r c + A.nranks := by
  rw [tx, mod_of_lt_three (by omega), dist]
  split_ifs <;> omega

theorem rx_eq_iff (hc : c < A.nranks) (hi : i < 2 * (A.nranks - 1)) :
    A.rx r i = c ↔ i + 1 = A.dist r c ∨ i + 1 = A.dist r c + A.nranks := by
  rw [rx, mod_of_lt_three (by omega), dist]
  split_ifs <;> omega

theorem next_prev : A.next (A.prev r) = r := by
  rw [next, prev, mod_of_lt_three (x := r + A.nranks - 1) (by omega)]
  split_ifs
  · rw [mod_of_lt_three (by omega)]
    split_ifs <;> omega
  · rw [mod_of_lt_three (by omega)]
    split_ifs <;> omega
  · omega

theorem rx_next (hi : i < 2 * (A.nranks - 1)) : A.rx (A.next r) i = A.tx r i := by
  have hnext : A.next r = if r + 1 < A.nranks then r + 1 else 0 := by
    rw [next, mod_of_lt_three (by omega)]
    split_ifs <;> omega
  rw [rx, tx, hnext, mod_of_lt_three (by split_ifs <;> omega), mod_of_lt_three (by omega)]
  split_ifs <;> omega

theorem add_dist {k : Nat} (hc : c < A.nranks) (hk : A.dist r c = k) : (c + k) % A.nranks = r := by
  rw [mod_of_lt_three (by have := A.dist_lt hr hc; omega)]
  unfold dist at hk
  split_ifs at hk ⊢ <;> omega

end

/-! ## Slices -/

variable {A}

variable {s : Nat}

theorem off_add_lt {j : Nat} (hc : c < A.nranks) (hs : s < A.numSlices) (hj : j < A.cnt c s) : A.off c s + j < A.count := by
  have h₁ : partOffset A.count A.nranks c + partCount A.count A.nranks c ≤ A.count := partOffset_add_le hc
  have h₂ : partOffset (partCount A.count A.nranks c) A.numSlices s + A.cnt c s ≤ partCount A.count A.nranks c :=
    partOffset_add_le hs
  unfold off
  omega

theorem exists_elem {e : Nat} (hS : 0 < A.numSlices) (he : e < A.count) :
    ∃ c < A.nranks, ∃ s < A.numSlices, ∃ j < A.cnt c s, e = A.off c s + j := by
  obtain ⟨c, hc, k, hk, rfl⟩ := exists_part (show 0 < A.nranks by have := A.two_le; omega) he
  obtain ⟨s, hs, j, hj, rfl⟩ := exists_part hS hk
  exact ⟨c, hc, s, hs, j, hj, by simp [off, add_assoc]⟩

theorem elem_unique {j c' s' j' : Nat} (hs : s < A.numSlices) (hj : j < A.cnt c s) (hs' : s' < A.numSlices)
    (hj' : j' < A.cnt c' s') (h : A.off c s + j = A.off c' s' + j') : c = c' ∧ s = s' ∧ j = j' := by
  have hin : ∀ {c s j : Nat}, s < A.numSlices → j < A.cnt c s →
      partOffset (partCount A.count A.nranks c) A.numSlices s + j < partCount A.count A.nranks c := by
    intro c s j hs hj
    have : partOffset (partCount A.count A.nranks c) A.numSlices s + A.cnt c s ≤ partCount A.count A.nranks c :=
      partOffset_add_le hs
    omega
  unfold off at h
  obtain ⟨rfl, h₂⟩ := part_unique (hin hs hj) (hin hs' hj') (by omega)
  obtain ⟨rfl, rfl⟩ := part_unique hj hj' h₂
  exact ⟨rfl, rfl, rfl⟩

/-! ## Nodes -/

variable (A)

/-- The operations of the slots, with the chunks of both phases in one formula. -/
def data (r : Nat) : Slot → NodeData
  | .p2p s i =>
    .p2p [⟨.send, A.next r, (if i = 0 then A.sendbuff r else A.recvbuff r) + A.off (A.tx r i) s, A.cnt (A.tx r i) s⟩,
      ⟨.recv, A.prev r, A.recvbuff r + A.off (A.rx r i) s, A.cnt (A.rx r i) s⟩]
  | .red s i _ =>
    .red ⟨A.recvbuff r + A.off (A.rx r i) s, A.sendbuff r + A.off (A.rx r i) s, A.recvbuff r + A.off (A.rx r i) s,
      A.cnt (A.rx r i) s⟩

variable {A}

theorem p2p_mem : .p2p s i ∈ A.pipe.slots ↔ s < A.numSlices ∧ i < 2 * (A.nranks - 1) := by
  rw [Pipeline.p2p_mem_slots]
  show s < A.numSlices ∧ i < A.nranks - 1 + (A.nranks - 1) ↔ _
  omega

theorem red_mem {k : Nat} : .red s i k ∈ A.pipe.slots ↔ s < A.numSlices ∧ i < A.nranks - 1 ∧ k = 0 := by
  rw [Pipeline.red_mem_slots]
  show s < A.numSlices ∧ i < A.nranks - 1 + (A.nranks - 1) ∧ k < (if i < A.nranks - 1 then 1 else 0) ↔ _
  split_ifs <;> omega

theorem ringARData_eq (r : Nat) {c : Slot} (hc : c ∈ A.pipe.slots) :
    ringARData (A.comm r) (A.buffers r) A.numSlices c = A.data r c := by
  have hn := A.two_le
  have hmod : ∀ x y, x = y + A.nranks → x % A.nranks = y % A.nranks := by
    rintro x y rfl
    exact Nat.add_mod_right _ _
  cases c with
  | p2p s i =>
    simp only [ringARData]
    by_cases h : i < (A.comm r).nranks - 1
    · have h' : i < A.nranks - 1 := h
      rw [if_pos h]
      have htx : A.tx r i = (r + A.nranks - i) % A.nranks := hmod _ _ (by omega)
      have hrx : A.rx r i = (r + A.nranks - i - 1) % A.nranks := hmod _ _ (by omega)
      simp only [data, htx, hrx]
      rfl
    · have h' : ¬ i < A.nranks - 1 := h
      rw [if_neg h]
      have htx : A.tx r i = (r + A.nranks + 1 - (i - (A.nranks - 1))) % A.nranks := congrArg (· % A.nranks) (by omega)
      have hrx : A.rx r i = (r + A.nranks - (i - (A.nranks - 1))) % A.nranks := congrArg (· % A.nranks) (by omega)
      simp only [data, htx, hrx, if_neg (show ¬ i = 0 by omega)]
      rfl
  | red s i k =>
    obtain ⟨-, hi, -⟩ := red_mem.1 hc
    have hrx : A.rx r i = (r + A.nranks - i - 1) % A.nranks := hmod _ _ (by omega)
    simp only [ringARData, data, hrx]
    rfl

theorem data_numOps_pos (r : Nat) (c : Slot) : 0 < (A.data r c).numOps := by
  cases c with
  | p2p s i => exact Nat.zero_lt_two
  | red s i m => exact zero_lt_one

theorem wired (A : AllReduce α) (r : Nat) : Wired A.pipe (A.data r) (A.dag r) := by
  rw [dag_eq]
  exact .of_nodes (ringARNodes_match (A.comm r) (A.buffers r) A.numSlices A.two_le) (fun c hc => ringARData_eq r hc)
    (data_numOps_pos r)

/-! ## Running values -/

variable (A)

/-- Element `j` of slice `s` of chunk `c` after `k` reductions. The `k`-th, of rank `c + k`, combines what was received with
the rank's own contribution, which in place has been overwritten, up to the trigger's count. -/
def acc (c s j : Nat) : Nat → α
  | 0 => A.init c (A.sendbuff c + (A.off c s + j))
  | k + 1 =>
    if j < triggerCount (A.cnt c s) then
      A.op (acc c s j k) (if A.sendbuff ((c + (k + 1)) % A.nranks) = A.recvbuff ((c + (k + 1)) % A.nranks) then acc c s j k
        else A.init ((c + (k + 1)) % A.nranks) (A.sendbuff ((c + (k + 1)) % A.nranks) + (A.off c s + j)))
    else acc c s j k

end AllReduce

end FlagCX.UniRunner
