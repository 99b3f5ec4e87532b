import FlagCX.UniRunner.RingResult

/-!
# The ring ReduceScatter on all ranks

Every rank runs the DAG of `initUniRunnerStateRingRS`. The block for rank `c` starts at rank `c + 1` and is combined with
the contribution of one rank after the other, in `scratchbuff`; the last combination is made by rank `c` itself, into
`recvbuff`. `reduceScatter_correct_iff` : exactly the sizes for which every run is right.
-/

namespace FlagCX.UniRunner
open List

open Dag

def NodeData.regions : NodeData → List (Nat × Nat)
  | .p2p ops => ops.map fun o => (o.addr, o.count)
  | .red d => [(d.input1, d.count), (d.input2, d.count), (d.output, d.count)]
  | .cpy d => [(d.src, d.count), (d.dst, d.count)]

/-- The region lies in the `size` elements from `base` on. -/
def Inside (base size : Nat) (region : Nat × Nat) : Prop := base ≤ region.1 ∧ region.1 + region.2 ≤ base + size

/-- A ring ReduceScatter over element type `α`. The scratch buffer has room for one block of each rank. -/
structure ReduceScatter (α : Type) where
  nranks : Nat
  recvcount : Nat
  cfg : Config
  sendbuff : Nat → Nat
  recvbuff : Nat → Nat
  scratchbuff : Nat → Nat
  op : α → α → α
  init : Nat → Nat → α
  two_le : 2 ≤ nranks
  redSlices_pos : 0 < cfg.numRedSlices recvcount
  scratch_apart : ∀ r < nranks,
    (scratchbuff r + nranks * recvcount ≤ sendbuff r ∨ sendbuff r + nranks * recvcount ≤ scratchbuff r) ∧
    (scratchbuff r + nranks * recvcount ≤ recvbuff r ∨ recvbuff r + recvcount ≤ scratchbuff r)
  placed : ∀ r < nranks, recvbuff r = sendbuff r + r * recvcount ∨ recvbuff r + recvcount ≤ sendbuff r ∨
    sendbuff r + nranks * recvcount ≤ recvbuff r

namespace ReduceScatter

variable {α : Type} (A : ReduceScatter α)

def comm (r : Nat) : Comm := ⟨r, A.nranks⟩

def buffers (r : Nat) : Buffers := ⟨A.sendbuff r, A.recvbuff r, A.scratchbuff r, A.recvcount⟩

/-- The DAG rank `r` builds. -/
def dag (r : Nat) : List DagNode :=
  match initUniRunnerStateRingRS (A.comm r) (A.buffers r) A.cfg with
  | .ok st => st.dagNodes
  | .error _ => []

abbrev slices : Nat := A.cfg.uniRunnerNSlices

/-- The number of reductions of a step. -/
abbrev redSlices : Nat := A.cfg.numRedSlices A.recvcount

abbrev chain : Pipeline := phases A.slices (A.nranks - 1) 0 A.redSlices

/-! ## Blocks -/

/-- The block sent at step `i`. -/
def tx (r i : Nat) : Nat := (r + A.nranks - i - 1) % A.nranks

/-- The block received at step `i`. -/
def rx (r i : Nat) : Nat := (r + A.nranks - i - 2) % A.nranks

def next (r : Nat) : Nat := (r + 1) % A.nranks

def prev (r : Nat) : Nat := (r + A.nranks - 1) % A.nranks

/-- The step at which rank `r` receives block `c`. -/
def far (r c : Nat) : Nat :=
  if c + 2 ≤ r then r - (c + 2) else if c + 2 ≤ r + A.nranks then r + A.nranks - (c + 2) else r + 2 * A.nranks - (c + 2)

/-- The number of elements of slice `s` of a block. -/
def cnt (s : Nat) : Nat := partCount A.recvcount A.slices s

/-- The offset of element `k` of slice `s` of block `c`. -/
def cell (c s k : Nat) : Nat := c * A.recvcount + (partOffset A.recvcount A.slices s + k)

def ops (r : Nat) : Slot → NodeData
  | .p2p s i =>
    .p2p [⟨.send, A.next r, (if i = 0 then A.sendbuff r else A.scratchbuff r) + A.cell (A.tx r i) s 0, A.cnt s⟩,
      ⟨.recv, A.prev r, A.scratchbuff r + A.cell (A.rx r i) s 0, A.cnt s⟩]
  | .red s i m =>
    let k := partOffset (A.cnt s) A.redSlices m
    .red ⟨A.scratchbuff r + A.cell (A.rx r i) s k, A.sendbuff r + A.cell (A.rx r i) s k,
      if i = A.nranks - 2 then A.recvbuff r + A.cell 0 s k else A.scratchbuff r + A.cell (A.rx r i) s k,
      partCount (A.cnt s) A.redSlices m⟩

variable {A} {r c s i m j k : Nat}

theorem p2p_slot : .p2p s i ∈ A.chain.slots ↔ s < A.slices ∧ i < A.nranks - 1 := by
  rw [Pipeline.p2p_mem_slots]
  exact Iff.rfl

theorem red_slot : .red s i m ∈ A.chain.slots ↔ s < A.slices ∧ i < A.nranks - 1 ∧ m < A.redSlices := by
  rw [Pipeline.red_mem_slots]
  show s < A.slices ∧ i < A.nranks - 1 + 0 ∧ m < (if i < A.nranks - 1 then A.redSlices else 0) ↔ _
  split_ifs <;> omega

theorem wired (A : ReduceScatter α) (r : Nat) : Wired A.chain (A.ops r) (A.dag r) := by
  have hok : initUniRunnerStateRingRS (A.comm r) (A.buffers r) A.cfg =
      .ok (ringRS (A.comm r) (A.buffers r) A.slices A.redSlices) := by
    unfold initUniRunnerStateRingRS
    rw [withRanks_ok A.two_le]
    rfl
  obtain ⟨es, he, hm⟩ := ringRS_nodes (A.comm r) (A.buffers r) A.slices A.redSlices A.two_le
  have hdag : A.dag r = es.map (·.node) := by
    unfold dag
    rw [hok]
    rw [he]
    rfl
  rw [hdag]
  refine Wired.of_nodes hm (fun c _ => ?_) fun c => ?_
  · cases c with
    | p2p s i => rfl
    | red s i m =>
      simp only [ringRSData, ops, cell, add_assoc, zero_mul, zero_add]
      rfl
  · cases c with
    | p2p s i => exact Nat.zero_lt_two
    | red s i m => exact zero_lt_one

theorem prev_lt (A : ReduceScatter α) (r : Nat) : A.prev r < A.nranks := Nat.mod_lt _ (by have := A.two_le; omega)

theorem tx_lt (A : ReduceScatter α) (r i : Nat) : A.tx r i < A.nranks := Nat.mod_lt _ (by have := A.two_le; omega)

theorem rx_lt (A : ReduceScatter α) (r i : Nat) : A.rx r i < A.nranks := Nat.mod_lt _ (by have := A.two_le; omega)

theorem mod_eq {n x : Nat} (h : x < 2 * n) : x % n = if x < n then x else x - n := by
  rw [AllReduce.mod_of_lt_three (by omega)]
  split_ifs <;> omega

section

variable (hr : r < A.nranks)
include hr

theorem next_prev : A.next (A.prev r) = r := by
  rw [next, prev, mod_eq (x := r + A.nranks - 1) (by omega)]
  split_ifs
  · rw [mod_eq (by omega)]
    split_ifs <;> omega
  · rw [mod_eq (by omega)]
    split_ifs <;> omega

theorem rx_eq_iff (hc : c < A.nranks) (hi : i < A.nranks - 1) : A.rx r i = c ↔ i = A.far r c := by
  rw [rx, mod_eq (by omega), far]
  split_ifs <;> omega

theorem tx_eq_iff (hc : c < A.nranks) (hi : i < A.nranks - 1) :
    A.tx r i = c ↔ i = A.far r c + 1 ∨ i = 0 ∧ A.far r c = A.nranks - 1 := by
  rw [tx, mod_eq (by omega), far]
  split_ifs <;> omega

theorem far_self : A.far r r = A.nranks - 2 := by
  unfold far
  split_ifs <;> omega

theorem far_eq_last (hc : c < A.nranks) (h : A.far r c = A.nranks - 2) : c = r := by
  unfold far at h
  split_ifs at h <;> omega

theorem tx_prev (hi : i < A.nranks - 1) : A.tx (A.prev r) i = A.rx r i := by
  have hprev : A.prev r = if r = 0 then A.nranks - 1 else r - 1 := by
    rw [prev, mod_eq (by omega)]
    split_ifs <;> omega
  rw [tx, rx, hprev, mod_eq (by split_ifs <;> omega), mod_eq (by omega)]
  split_ifs <;> omega

theorem rank_of_far (hc : c < A.nranks) (h : A.far r c = i) : (c + 1 + (i + 1)) % A.nranks = r := by
  have hsum : c + 1 + (i + 1) = r ∨ c + 1 + (i + 1) = r + A.nranks ∨ c + 1 + (i + 1) = r + 2 * A.nranks := by
    unfold far at h
    split_ifs at h <;> omega
  rw [AllReduce.mod_of_lt_three (by omega)]
  split_ifs <;> omega

theorem rank_of_start (hc : c < A.nranks) (h : A.far r c = A.nranks - 1) : (c + 1) % A.nranks = r := by
  unfold far at h
  rw [mod_eq (by omega)]
  split_ifs at h ⊢ <;> omega

end

/-! ## Cells -/

theorem slice_lt (hs : s < A.slices) (hk : k < A.cnt s) : partOffset A.recvcount A.slices s + k < A.recvcount := by
  have h := @partOffset_add_le A.recvcount _ _ hs
  unfold cnt at hk
  omega

theorem cell_lt (hc : c < A.nranks) (hs : s < A.slices) (hk : k < A.cnt s) : A.cell c s k < A.nranks * A.recvcount := by
  have h := slice_lt hs hk
  have hle : (c + 1) * A.recvcount ≤ A.nranks * A.recvcount := Nat.mul_le_mul_right _ hc
  rw [Nat.succ_mul] at hle
  unfold cell
  omega

variable {c' s' k' : Nat}

theorem cell_inj (hs : s < A.slices) (hk : k < A.cnt s) (hs' : s' < A.slices) (hk' : k' < A.cnt s')
    (h : A.cell c s k = A.cell c' s' k') : c = c' ∧ s = s' ∧ k = k' := by
  have h₁ := slice_lt hs hk
  have h₂ := slice_lt hs' hk'
  unfold cell at h
  have hc : c = c' := by
    rcases lt_trichotomy c c' with hlt | heq | hlt
    · have := Nat.mul_le_mul_right A.recvcount hlt
      rw [Nat.succ_mul] at this
      omega
    · exact heq
    · have := Nat.mul_le_mul_right A.recvcount hlt
      rw [Nat.succ_mul] at this
      omega
  subst hc
  obtain ⟨rfl, rfl⟩ := part_unique hk hk' (by omega)
  exact ⟨rfl, rfl, rfl⟩

theorem exists_elem {e : Nat} (hS : 0 < A.slices) (he : e < A.recvcount) :
    ∃ s < A.slices, ∃ k < A.cnt s, e = partOffset A.recvcount A.slices s + k := exists_part hS he

theorem part_lt (hm : m < A.redSlices) (hj : j < partCount (A.cnt s) A.redSlices m) :
    partOffset (A.cnt s) A.redSlices m + j < A.cnt s := by
  have := @partOffset_add_le (A.cnt s) _ _ hm
  omega

theorem isRing (A : ReduceScatter α) : IsRing A.chain A.nranks A.ops A.next A.prev where
  p2p _ _ _ := ⟨_, _, _, _, rfl⟩
  red _ _ _ _ := ⟨_, rfl⟩
  prev_lt r _ := A.prev_lt r
  next_prev _ hr := next_prev hr

/-! ## Values -/

variable (A)

/-- Element `k` of slice `s` of block `c` after that many reductions, the `i`-th by rank `c + 1 + i`. -/
def acc (c s k : Nat) : Nat → α
  | 0 => A.init ((c + 1) % A.nranks) (A.sendbuff ((c + 1) % A.nranks) + A.cell c s k)
  | i + 1 =>
    if Triggered (A.cnt s) A.redSlices k then
      A.op (acc c s k i) (A.init ((c + 1 + (i + 1)) % A.nranks) (A.sendbuff ((c + 1 + (i + 1)) % A.nranks) + A.cell c s k))
    else acc c s k i

/-- What the scratch buffer holds for an element of the `m`-th reduce slice, given what has been performed. -/
def value (f : Nat → Nat → Bool) (r c s m k : Nat) : α :=
  if A.far r c + 2 < A.nranks ∧ f (A.chain.idx (.red s (A.far r c) m)) 0 = true then A.acc c s k (A.far r c + 1)
  else if A.far r c + 1 < A.nranks ∧ f (A.chain.idx (.p2p s (A.far r c))) 1 = true then A.acc c s k (A.far r c)
  else A.init r (A.scratchbuff r + A.cell c s k)

/-- The message rank `r` sends at chain position `q`. -/
def message (r q : Nat) : List α :=
  (List.range (A.cnt (q % A.slices))).map fun k =>
    A.acc (A.tx r (q / A.slices)) (q % A.slices) k (q / A.slices)

structure Own (r : Nat) (x : RankState α) : Prop where
  counts : RingCounts A.chain (A.next r) (A.prev r) x
  scratch_mem : ∀ c < A.nranks, ∀ s < A.slices, ∀ m < A.redSlices, ∀ j < partCount (A.cnt s) A.redSlices m,
    x.mem (A.scratchbuff r + A.cell c s (partOffset (A.cnt s) A.redSlices m + j)) =
      A.value x.fired r c s m (partOffset (A.cnt s) A.redSlices m + j)
  recv_mem : ∀ s < A.slices, ∀ m < A.redSlices, ∀ j < partCount (A.cnt s) A.redSlices m,
    x.mem (A.recvbuff r + A.cell 0 s (partOffset (A.cnt s) A.redSlices m + j)) =
      if x.fired (A.chain.idx (.red s (A.nranks - 2) m)) 0 = true ∧
        j < triggerCount (partCount (A.cnt s) A.redSlices m) then
        A.acc r s (partOffset (A.cnt s) A.redSlices m + j) (A.nranks - 1)
      else A.init r (A.recvbuff r + A.cell 0 s (partOffset (A.cnt s) A.redSlices m + j))
  send_mem : ∀ c < A.nranks, ∀ s < A.slices, ∀ m < A.redSlices, ∀ j < partCount (A.cnt s) A.redSlices m,
    (c = r → A.recvbuff r = A.sendbuff r + r * A.recvcount → x.fired (A.chain.idx (.red s (A.nranks - 2) m)) 0 = false) →
    x.mem (A.sendbuff r + A.cell c s (partOffset (A.cnt s) A.redSlices m + j)) =
      A.init r (A.sendbuff r + A.cell c s (partOffset (A.cnt s) A.redSlices m + j))

variable {A} {x : RankState α}

theorem message_pos (r : Nat) (hs : s < A.slices) : A.message r (Pos.of A.chain s i) =
    (List.range (A.cnt s)).map fun k => A.acc (A.tx r i) s k i := by
  have hS : 0 < A.slices := by omega
  have hdiv : Pos.of A.chain s i / A.slices = i := by
    show (i * A.slices + s) / A.slices = i
    rw [add_comm, Nat.add_mul_div_right _ _ hS, Nat.div_eq_of_lt hs, zero_add]
  have hmod : Pos.of A.chain s i % A.slices = s := by
    show (i * A.slices + s) % A.slices = s
    rw [add_comm, Nat.add_mul_mod_self_right, Nat.mod_eq_of_lt hs]
  rw [message, hdiv, hmod]

theorem value_congr {f f' : Nat → Nat → Bool} (hred : A.far r c + 2 < A.nranks →
      f (A.chain.idx (.red s (A.far r c) m)) 0 = f' (A.chain.idx (.red s (A.far r c) m)) 0)
    (hrecv : A.far r c + 1 < A.nranks → f (A.chain.idx (.p2p s (A.far r c))) 1 = f' (A.chain.idx (.p2p s (A.far r c))) 1) :
    A.value f r c s m k = A.value f' r c s m k := by
  refine if_congr (and_congr_right fun h0 => ?_) rfl (if_congr (and_congr_right fun h0 => ?_) rfl rfl)
  · rw [hred h0]
  · rw [hrecv h0]

theorem red_open (hclosed : Closed (A.dag r) x.fired) (hs : s < A.slices) (hi : i < A.nranks - 1) (hm : m < A.redSlices)
    (hopen : x.fired (A.chain.idx (.p2p s i)) 1 = false) : x.fired (A.chain.idx (.red s i m)) 0 = false := by
  by_contra hno
  have hready := hclosed _ _ (by simpa using hno : x.fired (A.chain.idx (.red s i m)) 0 = true)
  have hmem := A.chain.red_mem_slots.1 (red_slot.2 ⟨hs, hi, hm⟩)
  have hfired := (A.wired r).p2p_fired_of_red hs hmem.2.1 hmem.2.2 hready (k := 1)
    (by rw [A.isRing.numOps_p2p]; exact one_lt_two)
  rw [hopen] at hfired
  cases hfired

/-! ## What a rank reads -/

/-- **A send carries the value the message stands for.** -/
theorem Own.read (h : A.Own r x) (hclosed : Closed (A.dag r) x.fired) (hr : r < A.nranks) (hs : s < A.slices)
    (hi : i < A.nranks - 1) (hready : LocalReady (A.dag r) x.fired (A.chain.idx (.p2p s i))) :
    readAt x.mem ((if i = 0 then A.sendbuff r else A.scratchbuff r) + A.cell (A.tx r i) s 0) (A.cnt s) =
      A.message r (Pos.of A.chain s i) := by
  have hslot := A.chain.p2p_mem_slots.1 (p2p_slot.2 ⟨hs, hi⟩)
  have hc := A.tx_lt r i
  have hstep := (A.tx_eq_iff hr hc hi).1 rfl
  have hself := A.far_self hr
  rw [message_pos r hs, readAt]
  refine map_congr_left fun k hk => ?_
  rw [mem_range] at hk
  obtain ⟨m, hm, j, hj, rfl⟩ : ∃ m < A.redSlices, ∃ j < partCount (A.cnt s) A.redSlices m,
      k = partOffset (A.cnt s) A.redSlices m + j := exists_part A.redSlices_pos hk
  have hcell : ∀ b k, b + A.cell (A.tx r i) s 0 + k = b + A.cell (A.tx r i) s k := by
    intro b k
    unfold cell
    omega
  rw [hcell]
  rcases eq_zero_or_pos i with hi0 | hi0
  · -- the first block, from `sendbuff`
    have hfar : A.far r (A.tx r i) = A.nranks - 1 := by omega
    rw [if_pos hi0, h.send_mem _ hc s hs m hm j hj fun hcr _ => by rw [hcr] at hfar; omega]
    rw [hi0] at hc hfar ⊢
    rw [acc, rank_of_start hr hc hfar]
  · -- a block this rank has reduced
    have hfar : A.far r (A.tx r i) = i - 1 := by omega
    have hred := (A.wired r).red_fired hclosed hs hslot.2 hready (show i - 1 < i by omega)
      (r := m) (A.chain.red_mem_slots.1 (red_slot.2 ⟨hs, by omega, hm⟩)).2.2
    rw [if_neg (by omega), h.scratch_mem _ hc s hs m hm j hj, value, hfar, if_pos ⟨by omega, hred⟩,
      show i - 1 + 1 = i by omega]

/-! ## Cells that are written -/

variable {lo len : Nat} {mem g : Nat → α}

theorem scratch_cell (hs : s < A.slices) (hs' : s' < A.slices) (hk' : k' < A.cnt s') (hlen : lo + len ≤ A.cnt s) :
    writeAt mem (A.scratchbuff r + A.cell c s lo) len g (A.scratchbuff r + A.cell c' s' k') =
      if c' = c ∧ s' = s ∧ lo ≤ k' ∧ k' < lo + len then g (k' - lo) else mem (A.scratchbuff r + A.cell c' s' k') := by
  unfold writeAt
  by_cases hin : A.scratchbuff r + A.cell c s lo ≤ A.scratchbuff r + A.cell c' s' k' ∧
      A.scratchbuff r + A.cell c' s' k' < A.scratchbuff r + A.cell c s lo + len
  · have hcell : A.cell c s (lo + (A.cell c' s' k' - A.cell c s lo)) = A.cell c' s' k' := by
      unfold cell at hin ⊢
      omega
    obtain ⟨rfl, rfl, hj⟩ := cell_inj hs (show lo + (A.cell c' s' k' - A.cell c s lo) < A.cnt s by omega) hs' hk' hcell
    rw [if_pos hin, if_pos ⟨rfl, rfl, by omega, by omega⟩]
    congr 1
    omega
  · rw [if_neg hin, if_neg]
    rintro ⟨rfl, rfl, h1, h2⟩
    unfold cell at hin
    omega

theorem scratch_apart_cell {a : Nat} (hc : c < A.nranks) (hs : s < A.slices)
    (hlen : lo + len ≤ A.cnt s) (ha : a < A.scratchbuff r ∨ A.scratchbuff r + A.nranks * A.recvcount ≤ a) :
    writeAt mem (A.scratchbuff r + A.cell c s lo) len g a = mem a := by
  refine writeAt_of_not _ _ ?_
  rintro ⟨h₁, h₂⟩
  have hlast := cell_lt hc hs (show lo + (len - 1) < A.cnt s by omega)
  unfold cell at h₁ h₂ hlast
  omega

theorem recv_apart (hr : r < A.nranks) (hs : s < A.slices) (hk : k < A.cnt s) :
    A.recvbuff r + A.cell 0 s k < A.scratchbuff r ∨
      A.scratchbuff r + A.nranks * A.recvcount ≤ A.recvbuff r + A.cell 0 s k := by
  have hlt := slice_lt hs hk
  have h := (A.scratch_apart r hr).2
  unfold cell
  omega

theorem send_apart (hr : r < A.nranks) (hc : c < A.nranks) (hs : s < A.slices) (hk : k < A.cnt s) :
    A.sendbuff r + A.cell c s k < A.scratchbuff r ∨
      A.scratchbuff r + A.nranks * A.recvcount ≤ A.sendbuff r + A.cell c s k := by
  have hlt := cell_lt hc hs hk
  have h := (A.scratch_apart r hr).1
  omega

theorem recv_cell (hs : s < A.slices) (hs' : s' < A.slices) (hk' : k' < A.cnt s') (hlen : lo + len ≤ A.cnt s) :
    writeAt mem (A.recvbuff r + A.cell 0 s lo) len g (A.recvbuff r + A.cell 0 s' k') =
      if s' = s ∧ lo ≤ k' ∧ k' < lo + len then g (k' - lo) else mem (A.recvbuff r + A.cell 0 s' k') := by
  unfold writeAt
  by_cases hin : A.recvbuff r + A.cell 0 s lo ≤ A.recvbuff r + A.cell 0 s' k' ∧
      A.recvbuff r + A.cell 0 s' k' < A.recvbuff r + A.cell 0 s lo + len
  · have hcell : A.cell 0 s (lo + (A.cell 0 s' k' - A.cell 0 s lo)) = A.cell 0 s' k' := by
      unfold cell at hin ⊢
      omega
    obtain ⟨-, rfl, hj⟩ := cell_inj hs (show lo + (A.cell 0 s' k' - A.cell 0 s lo) < A.cnt s by omega) hs' hk' hcell
    rw [if_pos hin, if_pos ⟨rfl, by omega, by omega⟩]
    congr 1
    omega
  · rw [if_neg hin, if_neg]
    rintro ⟨rfl, h1, h2⟩
    unfold cell at hin
    omega

section

variable (hr : r < A.nranks) (hs : s < A.slices) (hlen : lo + len ≤ A.cnt s) (hc' : c' < A.nranks) (hs' : s' < A.slices)
  (hk' : k' < A.cnt s')
include hr hs hlen hc' hs' hk'

theorem recv_apart_scratch : writeAt mem (A.recvbuff r + A.cell 0 s lo) len g (A.scratchbuff r + A.cell c' s' k') =
      mem (A.scratchbuff r + A.cell c' s' k') := by
  refine writeAt_of_not _ _ ?_
  rintro ⟨h₁, h₂⟩
  have hlast := slice_lt hs (show lo + (len - 1) < A.cnt s by omega)
  have hlt := cell_lt hc' hs' hk'
  have h := (A.scratch_apart r hr).2
  unfold cell at h₁ h₂ hlt
  omega

theorem recv_apart_send
    (hother : ¬ (c' = r ∧ A.recvbuff r = A.sendbuff r + r * A.recvcount ∧ s' = s ∧ lo ≤ k' ∧ k' < lo + len)) :
    writeAt mem (A.recvbuff r + A.cell 0 s lo) len g (A.sendbuff r + A.cell c' s' k') =
      mem (A.sendbuff r + A.cell c' s' k') := by
  refine writeAt_of_not _ _ ?_
  rintro ⟨h₁, h₂⟩
  have hlast := slice_lt hs (show lo + (len - 1) < A.cnt s by omega)
  have hlt := cell_lt hc' hs' hk'
  rcases A.placed r hr with hplace | hplace | hplace
  · have hcell : A.cell r s (lo + (A.cell c' s' k' - A.cell r s lo)) = A.cell c' s' k' := by
      unfold cell at h₁ h₂ ⊢
      omega
    obtain ⟨rfl, rfl, hj⟩ := cell_inj hs
      (show lo + (A.cell c' s' k' - A.cell r s lo) < A.cnt s by unfold cell at h₁ h₂ ⊢; omega) hs' hk' hcell
    refine hother ⟨rfl, hplace, rfl, by omega, ?_⟩
    unfold cell at h₂ hj
    omega
  · unfold cell at h₁ h₂ hlt
    omega
  · omega

end

/-! ## Operations -/

section Operations

variable {y : RankState α} (hs : s < A.slices) (hi : i < A.nranks - 1)
include hs hi

theorem Own.send (h : A.Own r x) (hclosed : Closed (A.dag r) x.fired)
    (hready : LocalReady (A.dag r) x.fired (A.chain.idx (.p2p s i)))
    (hfresh : x.fired (A.chain.idx (.p2p s i)) 0 = false) (hf : y.fired = x.fired) (hy : y.mem = x.mem)
    (hsent : y.sent = Function.update x.sent (A.next r) (x.sent (A.next r) + 1)) (hrecvd : y.recvd = x.recvd) :
    A.Own r (y.mark (A.chain.idx (.p2p s i)) 0) := by
  have hslot := A.chain.p2p_mem_slots.1 (p2p_slot.2 ⟨hs, hi⟩)
  have hpos := h.counts.sent_eq (A.wired r) hclosed (A.isRing.numOps_p2p r) hs hslot.2 hready hfresh
  have hred := fun s' (hs' : s' < A.slices) i' (hi' : i' < A.nranks - 1) m (hm : m < A.redSlices) =>
    Wired.mark_other (k := 0) hf (p2p_slot.2 ⟨hs, hi⟩) (red_slot.2 ⟨hs', hi', hm⟩) 0 (by simp)
  refine ⟨h.counts.mark_send hs hslot.2 hpos hf hsent hrecvd, fun c hc s' hs' m hm j hj => ?_, fun s' hs' m hm j hj => ?_,
    fun c hc s' hs' m hm j hj hopen => ?_⟩
  · show y.mem _ = _
    rw [hy, h.scratch_mem c hc s' hs' m hm j hj]
    refine value_congr (fun h0 => (hred s' hs' _ (by omega) m hm).symm) fun h0 => ?_
    rw [Wired.mark_fired (p2p_slot.2 ⟨hs, hi⟩) (p2p_slot.2 ⟨hs', by omega⟩), if_neg (by simp), hf]
  · show y.mem _ = _
    rw [hy, h.recv_mem s' hs' m hm j hj, hred s' hs' _ (by omega) m hm]
  · show y.mem _ = _
    rw [hred s' hs' _ (by omega) m hm] at hopen
    rw [hy, h.send_mem c hc s' hs' m hm j hj hopen]

theorem Own.recv (h : A.Own r x) (hclosed : Closed (A.dag r) x.fired) (hr : r < A.nranks)
    (hready : LocalReady (A.dag r) x.fired (A.chain.idx (.p2p s i)))
    (hfresh : x.fired (A.chain.idx (.p2p s i)) 1 = false) (hf : y.fired = x.fired)
    (hy : y.mem = writeAt x.mem (A.scratchbuff r + A.cell (A.rx r i) s 0) (A.cnt s) fun j =>
      (A.message (A.prev r) (x.recvd (A.prev r))).getD j (x.mem (A.scratchbuff r + A.cell (A.rx r i) s 0 + j)))
    (hsent : y.sent = x.sent) (hrecvd : y.recvd = Function.update x.recvd (A.prev r) (x.recvd (A.prev r) + 1)) :
    A.Own r (y.mark (A.chain.idx (.p2p s i)) 1) := by
  have hslot := A.chain.p2p_mem_slots.1 (p2p_slot.2 ⟨hs, hi⟩)
  have hpos := h.counts.recvd_eq (A.wired r) hclosed (A.isRing.numOps_p2p r) hs hslot.2 hready hfresh
  have hrx := A.rx_lt r i
  have hred := fun s' (hs' : s' < A.slices) i' (hi' : i' < A.nranks - 1) m (hm : m < A.redSlices) =>
    Wired.mark_other (k := 1) hf (p2p_slot.2 ⟨hs, hi⟩) (red_slot.2 ⟨hs', hi', hm⟩) 0 (by simp)
  rw [← hpos, message_pos _ hs, tx_prev hr hi] at hy
  refine ⟨h.counts.mark_recv hs hslot.2 hpos hf hsent hrecvd, fun c hc s' hs' m hm j hj => ?_, fun s' hs' m hm j hj => ?_,
    fun c hc s' hs' m hm j hj hopen => ?_⟩
  · have hk := part_lt hm hj
    have hfar := A.rx_eq_iff hr hc hi
    show y.mem _ = _
    rw [hy, scratch_cell hs hs' hk (by omega)]
    by_cases hslice : c = A.rx r i ∧ s' = s
    · -- the slice received
      obtain ⟨hcr, rfl⟩ := hslice
      have hi' := hfar.1 hcr.symm
      have hmark : (y.mark (A.chain.idx (.p2p s' i)) 1).fired (A.chain.idx (.p2p s' i)) 1 = true := by
        rw [Wired.mark_fired (p2p_slot.2 ⟨hs, hi⟩) (p2p_slot.2 ⟨hs, hi⟩), if_pos ⟨rfl, rfl⟩]
      rw [← hcr, if_pos ⟨rfl, rfl, Nat.zero_le _, by omega⟩, Nat.sub_zero, value, ← hi', if_neg,
        if_pos ⟨by omega, hmark⟩]
      · simp [getD_eq_getElem?_getD, hk]
      · rintro ⟨-, hfired⟩
        rw [hred s' hs' i hi m hm, red_open hclosed hs hi hm hfresh] at hfired
        cases hfired
    · -- other slices do not notice
      rw [if_neg fun hin => hslice ⟨hin.1, hin.2.1⟩, h.scratch_mem c hc s' hs' m hm j hj]
      refine value_congr (fun h0 => (hred s' hs' _ (by omega) m hm).symm) fun h0 => ?_
      rw [Wired.mark_fired (p2p_slot.2 ⟨hs, hi⟩) (p2p_slot.2 ⟨hs', by omega⟩), if_neg, hf]
      rintro ⟨he, -⟩
      obtain ⟨hs', hstep⟩ := Slot.p2p.inj he
      exact hslice ⟨(hfar.2 hstep.symm).symm, hs'⟩
  · show y.mem _ = _
    rw [hy, scratch_apart_cell hrx hs (by omega) (recv_apart hr hs' (part_lt hm hj)), h.recv_mem s' hs' m hm j hj,
      hred s' hs' _ (by omega) m hm]
  · show y.mem _ = _
    rw [hred s' hs' _ (by omega) m hm] at hopen
    rw [hy, scratch_apart_cell hrx hs (by omega) (send_apart hr hc hs' (part_lt hm hj)),
      h.send_mem c hc s' hs' m hm j hj hopen]

section

variable (h : A.Own r x) (hr : r < A.nranks) (hm : m < A.redSlices)
  (hready : LocalReady (A.dag r) x.fired (A.chain.idx (.red s i m))) (hfresh : x.fired (A.chain.idx (.red s i m)) 0 = false)
include h hr hm hready hfresh

theorem Own.read_red (hj : j < partCount (A.cnt s) A.redSlices m) :
    x.mem (A.scratchbuff r + A.cell (A.rx r i) s (partOffset (A.cnt s) A.redSlices m + j)) =
      A.acc (A.rx r i) s (partOffset (A.cnt s) A.redSlices m + j) i ∧
    x.mem (A.sendbuff r + A.cell (A.rx r i) s (partOffset (A.cnt s) A.redSlices m + j)) =
      A.init r (A.sendbuff r + A.cell (A.rx r i) s (partOffset (A.cnt s) A.redSlices m + j)) := by
  have hmem := A.chain.red_mem_slots.1 (red_slot.2 ⟨hs, hi, hm⟩)
  have hrx := A.rx_lt r i
  have hfar := (A.rx_eq_iff hr hrx hi).1 rfl
  constructor
  · rw [h.scratch_mem _ hrx s hs m hm j hj, value, ← hfar, hfresh, if_neg (by simp), if_pos]
    exact ⟨by omega, (A.wired r).p2p_fired_of_red hs hmem.2.1 hmem.2.2 hready
      (by rw [A.isRing.numOps_p2p]; exact one_lt_two)⟩
  · refine h.send_mem _ hrx s hs m hm j hj fun hcr _ => ?_
    rw [hcr, far_self hr] at hfar
    rw [← hfar]
    exact hfresh

theorem Own.red (hf : y.fired = x.fired)
    (hy : y.mem = writeAt x.mem (if i = A.nranks - 2 then A.recvbuff r + A.cell 0 s (partOffset (A.cnt s) A.redSlices m) else A.scratchbuff r + A.cell (A.rx r i) s (partOffset (A.cnt s) A.redSlices m)) (triggerCount (partCount (A.cnt s) A.redSlices m)) fun j => A.op (x.mem (A.scratchbuff r + A.cell (A.rx r i) s (partOffset (A.cnt s) A.redSlices m) + j)) (x.mem (A.sendbuff r + A.cell (A.rx r i) s (partOffset (A.cnt s) A.redSlices m) + j)))
    (hsent : y.sent = x.sent) (hrecvd : y.recvd = x.recvd) : A.Own r (y.mark (A.chain.idx (.red s i m)) 0) := by
  have hslot := red_slot.2 ⟨hs, hi, hm⟩
  have hrx := A.rx_lt r i
  have hfar := (A.rx_eq_iff hr hrx hi).1 rfl
  have htrigger := triggerCount_le_self (partCount (A.cnt s) A.redSlices m)
  have hpart := @partOffset_add_le (A.cnt s) _ _ hm
  have hread := fun j hj => h.read_red (j := j) hs hi hr hm hready hfresh hj
  have hmarked := fun s' (hs' : s' < A.slices) i' (hi' : i' < A.nranks - 1) m' (hm' : m' < A.redSlices) =>
    Wired.mark_red hf hslot (red_slot.2 ⟨hs', hi', hm'⟩)
  have hp2p := fun s' (hs' : s' < A.slices) i' (hi' : i' < A.nranks - 1) =>
    Wired.mark_other (k := 0) hf hslot (p2p_slot.2 ⟨hs', hi'⟩) 1 (by simp)
  -- the value of the reduction
  have hresult : ∀ j < triggerCount (partCount (A.cnt s) A.redSlices m),
      A.op (x.mem (A.scratchbuff r + A.cell (A.rx r i) s (partOffset (A.cnt s) A.redSlices m) + j))
        (x.mem (A.sendbuff r + A.cell (A.rx r i) s (partOffset (A.cnt s) A.redSlices m) + j)) =
      A.acc (A.rx r i) s (partOffset (A.cnt s) A.redSlices m + j) (i + 1) := by
    intro j hj
    have hcell : ∀ b, b + A.cell (A.rx r i) s (partOffset (A.cnt s) A.redSlices m) + j =
        b + A.cell (A.rx r i) s (partOffset (A.cnt s) A.redSlices m + j) := by
      intro b
      unfold cell
      omega
    obtain ⟨h₁, h₂⟩ := hread j (by omega)
    rw [hcell, hcell, h₁, h₂, acc, if_pos ((triggered_part hm (by omega)).2 hj), rank_of_far hr hrx hfar.symm]
  by_cases hlast : i = A.nranks - 2
  · rw [if_pos hlast] at hy
    have hself : A.rx r i = r := A.far_eq_last hr hrx (by omega)
    refine ⟨h.counts.mark_of_ne hslot hf hsent hrecvd nofun, fun c hc s' hs' m' hm' j hj => ?_,
      fun s' hs' m' hm' j hj => ?_, fun c hc s' hs' m' hm' j hj hopen => ?_⟩
    · show y.mem _ = _
      rw [hy, recv_apart_scratch hr hs (by omega) hc hs' (part_lt hm' hj), h.scratch_mem c hc s' hs' m' hm' j hj]
      refine value_congr (fun h0 => ?_) fun h0 => (hp2p s' hs' _ (by omega)).symm
      rw [hmarked s' hs' _ (by omega) m' hm', if_neg (by omega)]
    · show y.mem _ = _
      rw [hy, recv_cell hs hs' (part_lt hm' hj) (by omega), hmarked s' hs' _ (by omega) m' hm']
      by_cases hpiece : s' = s ∧ m' = m
      · obtain ⟨rfl, rfl⟩ := hpiece
        rw [if_pos (show s' = s' ∧ A.nranks - 2 = i ∧ m' = m' from ⟨rfl, hlast.symm, rfl⟩)]
        by_cases hj' : j < triggerCount (partCount (A.cnt s') A.redSlices m')
        · rw [if_pos ⟨rfl, by omega, by omega⟩, if_pos ⟨rfl, hj'⟩, Nat.add_sub_cancel_left, hresult j hj', hself,
            show i + 1 = A.nranks - 1 by omega]
        · rw [if_neg (by omega), if_neg fun hno => hj' hno.2, h.recv_mem s' hs' m' hm' j hj, if_neg fun hno => hj' hno.2]
      · have hno : ¬ (s' = s ∧ A.nranks - 2 = i ∧ m' = m) := fun hin => hpiece ⟨hin.1, hin.2.2⟩
        rw [if_neg hno, if_neg fun hin => hpiece ⟨hin.1, part_of_written (congrArg A.cnt hin.1) hj hin.2.1 hin.2.2⟩,
          h.recv_mem s' hs' m' hm' j hj]
    · show y.mem _ = _
      rw [hmarked s' hs' _ (by omega) m' hm'] at hopen
      rw [hy, recv_apart_send hr hs (by omega) hc hs' (part_lt hm' hj)]
      · refine h.send_mem c hc s' hs' m' hm' j hj fun hcr hplace => ?_
        have hstill := hopen hcr hplace
        split_ifs at hstill
        exact hstill
      · rintro ⟨hcr, hplace, hss, h1, h2⟩
        have hfired := hopen hcr hplace
        rw [if_pos ⟨hss, hlast.symm, part_of_written (congrArg A.cnt hss) hj h1 h2⟩] at hfired
        cases hfired
  · rw [if_neg hlast] at hy
    refine ⟨h.counts.mark_of_ne hslot hf hsent hrecvd nofun, fun c hc s' hs' m' hm' j hj => ?_,
      fun s' hs' m' hm' j hj => ?_, fun c hc s' hs' m' hm' j hj hopen => ?_⟩
    · show y.mem _ = _
      rw [hy, scratch_cell hs hs' (part_lt hm' hj) (by omega)]
      by_cases hpiece : c = A.rx r i ∧ s' = s ∧ m' = m
      · obtain ⟨rfl, rfl, rfl⟩ := hpiece
        have hvalue : A.value (y.mark (A.chain.idx (.red s' i m')) 0).fired r (A.rx r i) s' m'
            (partOffset (A.cnt s') A.redSlices m' + j) =
            A.acc (A.rx r i) s' (partOffset (A.cnt s') A.redSlices m' + j) (i + 1) := by
          rw [value, ← hfar, if_pos ⟨by omega, by rw [hmarked s' hs i hi m' hm, if_pos ⟨rfl, rfl, rfl⟩]⟩]
        rw [hvalue]
        by_cases hj' : j < triggerCount (partCount (A.cnt s') A.redSlices m')
        · rw [if_pos ⟨rfl, rfl, by omega, by omega⟩, Nat.add_sub_cancel_left, hresult j hj']
        · rw [if_neg (by omega), (hread j hj).1, acc, if_neg fun ht => hj' ((triggered_part hm hj).1 ht)]
      · rw [if_neg fun hin => hpiece ⟨hin.1, hin.2.1, part_of_written (congrArg A.cnt hin.2.1) hj hin.2.2.1 hin.2.2.2⟩,
          h.scratch_mem c hc s' hs' m' hm' j hj]
        refine value_congr (fun h0 => ?_) fun h0 => (hp2p s' hs' _ (by omega)).symm
        rw [hmarked s' hs' _ (by omega) m' hm', if_neg]
        rintro ⟨rfl, hstep, rfl⟩
        exact hpiece ⟨((A.rx_eq_iff hr hc hi).2 hstep.symm).symm, rfl, rfl⟩
    · have hno : ¬ (s' = s ∧ A.nranks - 2 = i ∧ m' = m) := fun hin => hlast hin.2.1.symm
      show y.mem _ = _
      rw [hy, scratch_apart_cell hrx hs (by omega) (recv_apart hr hs' (part_lt hm' hj)), h.recv_mem s' hs' m' hm' j hj,
        hmarked s' hs' _ (by omega) m' hm', if_neg hno]
    · show y.mem _ = _
      rw [hmarked s' hs' _ (by omega) m' hm', if_neg (fun hin => hlast hin.2.1.symm)] at hopen
      rw [hy, scratch_apart_cell hrx hs (by omega) (send_apart hr hc hs' (part_lt hm' hj)),
        h.send_mem c hc s' hs' m' hm' j hj hopen]

end

end Operations

/-! ## Runs -/

variable (A)

theorem keeps (hr : r < A.nranks) : Keeps (A.dag r) A.op (fun p => A.message p) (fun _ => A.message r) (A.Own r) := by
  refine (A.wired r).keeps fun x hx hclosed c hc k hready hfresh => ?_
  cases c with
  | p2p s i =>
    obtain ⟨hs, hi⟩ := p2p_slot.1 hc
    match k with
    | 0 =>
      have hslot := A.chain.p2p_mem_slots.1 hc
      have hread := hx.read hclosed hr hs hi hready
      rw [hx.counts.sent_eq (A.wired r) hclosed (A.isRing.numOps_p2p r) hs hslot.2 hready hfresh] at hread
      refine ⟨fun peer addr count hop => ?_, fun x' hx' => ?_⟩
      · cases hop
        exact hread
      · cases hx'
        exact hx.send hs hi hclosed hready hfresh rfl rfl rfl rfl
    | 1 =>
      refine ⟨fun peer addr count hop => ?_, fun x' hx' => ?_⟩
      · cases hop
      · cases hx'
        exact hx.recv hs hi hclosed hr hready hfresh rfl rfl rfl rfl
    | k + 2 => exact ⟨nofun, nofun⟩
  | red s i m =>
    obtain ⟨hs, hi, hm⟩ := red_slot.1 hc
    match k with
    | 0 =>
      refine ⟨trivial, fun x' hx' => ?_⟩
      cases hx'
      exact hx.red hs hi hr hm hready hfresh rfl rfl rfl rfl
    | k + 1 => exact ⟨trivial, nofun⟩

theorem own_start (r : Nat) : A.Own r ⟨fun _ _ => false, A.init r, fun _ => 0, fun _ => 0⟩ := by
  refine ⟨.start _ _ _ _, fun c _ s _ m _ j _ => ?_, fun s _ m _ j _ => ?_, fun _ _ _ _ _ _ _ _ _ => rfl⟩
  · simp [value]
  · exact (if_neg nofun).symm

def Ends (w : World α) : Prop := Run A.nranks A.dag A.op (World.start A.init) w ∧ Complete A.nranks A.dag w

variable {A} {w : World α}

/-- **From every reachable world the ranks can finish.** -/
theorem exists_finish (h : Run A.nranks A.dag A.op (World.start A.init) w) :
    ∃ w', Run A.nranks A.dag A.op w w' ∧ Complete A.nranks A.dag w' :=
  exists_complete_of_times (M := fun a _ => A.message a) (L := A.Own) (fun _ hr => A.keeps hr)
    (A.isRing.timed (fun r _ => A.wired r) fun _ _ _ hx => hx.counts) (fun r _ => A.own_start r) h

theorem Ends.value (h : A.Ends w) (hr : r < A.nranks) (hs : s < A.slices) (hk : k < A.cnt s) :
    w.mem r (A.recvbuff r + A.cell 0 s k) =
      if Triggered (A.cnt s) A.redSlices k then A.acc r s k (A.nranks - 1) else A.init r (A.recvbuff r + A.cell 0 s k) := by
  have hn := A.two_le
  obtain ⟨sent, recvd, hsplit⟩ := splits_of_run (M := fun a _ => A.message a) (L := A.Own) (fun _ hr => A.keeps hr)
    (fun r _ => A.own_start r) h.1
  obtain ⟨m, hm, j, hj, rfl⟩ := exists_part A.redSlices_pos hk
  have hslot : Slot.red s (A.nranks - 2) m ∈ A.chain.slots := red_slot.2 ⟨hs, by omega, hm⟩
  have hdone := h.2.fired hr (A.wired r) hslot (k := 0) zero_lt_one
  have hmem : w.mem r _ = _ := (hsplit.own r hr).recv_mem s hs m hm j hj
  have hfired : (w.rank sent recvd r).fired = w.fired r := rfl
  rw [hmem, hfired]
  refine if_congr ?_ rfl rfl
  rw [triggered_part hm hj, hdone]
  exact and_iff_right rfl

/-! ## The result -/

theorem acc_eq (ht : Triggered (A.cnt s) A.redSlices k) (i : Nat) : A.acc c s k i =
    foldRanks A.op (fun q => A.init ((c + 1 + q) % A.nranks) (A.sendbuff ((c + 1 + q) % A.nranks) + A.cell c s k)) i := by
  induction i with
  | zero => rfl
  | succ i ih => rw [acc, if_pos ht, ih, foldRanks]

variable (A)

/-- Every complete run leaves in `recvbuff` of rank `r` the reduction of block `r` over all ranks. -/
def Reduces : Prop := ∀ w, A.Ends w → ∀ r < A.nranks, ∀ e < A.recvcount,
  w.mem r (A.recvbuff r + e) =
    foldRanks A.op (fun q => A.init q (A.sendbuff q + (r * A.recvcount + e))) (A.nranks - 1)

def AccessesInside (r : Nat) : Prop := ∀ node ∈ A.dag r, ∀ region ∈ node.nodeData.regions,
  Inside (A.scratchbuff r) (A.nranks * A.recvcount) region ∨ Inside (A.sendbuff r) (A.nranks * A.recvcount) region ∨
    Inside (A.recvbuff r) A.recvcount region

/-- The ranks can always finish, the result is the reduction, and all accesses are inside the buffers. -/
def Correct : Prop :=
  (∀ w, Run A.nranks A.dag A.op (World.start A.init) w → ∃ w', Run A.nranks A.dag A.op w w' ∧ Complete A.nranks A.dag w') ∧
  A.Reduces ∧ ∀ r < A.nranks, A.AccessesInside r

variable {A}

theorem cell_inside {base : Nat} (hc : c < A.nranks) (hs : s < A.slices) (hlen : k + len ≤ A.cnt s) :
    Inside base (A.nranks * A.recvcount) (base + A.cell c s k, len) := by
  have hle : (c + 1) * A.recvcount ≤ A.nranks * A.recvcount := Nat.mul_le_mul_right _ hc
  have hpart := @partOffset_add_le A.recvcount _ _ hs
  rw [Nat.succ_mul] at hle
  unfold cnt at hlen
  unfold Inside cell
  omega

theorem cell_inside_block {base : Nat} (hs : s < A.slices) (hlen : k + len ≤ A.cnt s) :
    Inside base A.recvcount (base + A.cell 0 s k, len) := by
  have hpart := @partOffset_add_le A.recvcount _ _ hs
  unfold cnt at hlen
  unfold Inside cell
  omega

/-- **No operation reaches outside the buffers**, whatever the sizes. -/
theorem accessesInside (A : ReduceScatter α) (r : Nat) : A.AccessesInside r := by
  intro node hnode region hregion
  obtain ⟨u, hu⟩ := mem_iff_getElem?.1 hnode
  obtain ⟨c, hc, -, hdata⟩ := (A.wired r).slot_of_node hu
  rw [hdata] at hregion
  cases c with
  | p2p s i =>
    obtain ⟨hs, hi⟩ := p2p_slot.1 hc
    have hsend : ∀ base, Inside base _ (base + A.cell (A.tx r i) s 0, A.cnt s) := fun base =>
      cell_inside (A.tx_lt r i) hs (zero_add _).le
    have hrecv : Inside (A.scratchbuff r) _ (A.scratchbuff r + A.cell (A.rx r i) s 0, A.cnt s) :=
      cell_inside (A.rx_lt r i) hs (zero_add _).le
    rcases mem_pair.1 hregion with rfl | rfl
    · split_ifs
      · exact .inr (.inl (hsend _))
      · exact .inl (hsend _)
    · exact .inl hrecv
  | red s i m =>
    obtain ⟨hs, hi, hm⟩ := red_slot.1 hc
    have hpart := @partOffset_add_le (A.cnt s) _ _ hm
    have hrx : ∀ base, Inside base _ (base + A.cell (A.rx r i) s (partOffset (A.cnt s) A.redSlices m), _) := fun base =>
      cell_inside (A.rx_lt r i) hs hpart
    rcases mem_cons.1 hregion with rfl | hregion
    · exact .inl (hrx _)
    rcases mem_pair.1 hregion with rfl | rfl
    · exact .inr (.inl (hrx _))
    · split_ifs
      · exact .inr (.inr (cell_inside_block hs hpart))
      · exact .inl (hrx _)

theorem reduces_of_small (ha : Std.Associative A.op) (hcomm : Std.Commutative A.op) (hS : 0 < A.slices)
    (hsmall : ∀ s < A.slices, ∀ m < A.redSlices, partCount (A.cnt s) A.redSlices m < 2 ^ 32) : A.Reduces := by
  intro w hw r hr e he
  obtain ⟨s, hs, k, hk, rfl⟩ := exists_elem hS he
  have htrigger : Triggered (A.cnt s) A.redSlices k := by
    obtain ⟨m, hm, j, hj, rfl⟩ := exists_part A.redSlices_pos hk
    rw [triggered_part hm hj, triggerCount, Nat.mod_eq_of_lt (hsmall s hs m hm)]
    exact hj
  have hvalue := hw.value hr hs hk
  have hzero : A.cell 0 s k = partOffset A.recvcount A.slices s + k := by rw [cell, zero_mul, zero_add]
  rw [if_pos htrigger, hzero] at hvalue
  rw [hvalue, acc_eq htrigger]
  exact foldRanks_rotate ha hcomm (fun q => A.init q (A.sendbuff q + A.cell r s k)) (by have := A.two_le; omega) (r + 1)

theorem ends_start_of_no_slices (h : A.slices = 0) : A.Ends (World.start A.init) := by
  refine ⟨.refl, fun r _ u hu => ?_⟩
  obtain ⟨c, hc, -⟩ := (A.wired r).slot_of_node (getElem?_eq_getElem hu)
  cases c with
  | p2p s i => exact absurd (p2p_slot.1 hc).1 (by omega)
  | red s i m => exact absurd (red_slot.1 hc).1 (by omega)

end ReduceScatter

/-- Rank memories with `send` in `sendbuff` (address 0) and zeros elsewhere. In place, `recvbuff` of rank `r` is block `r` of
`sendbuff`; otherwise it stands behind it. -/
def sumReduceScatter (n recvcount S R : Nat) (inPlace : Bool) (send : Nat → Nat → Nat) (hn : 2 ≤ n) (hR : 0 < R) :
    ReduceScatter Nat where
  nranks := n
  recvcount := recvcount
  cfg := ⟨S, R, 0, 0⟩
  sendbuff _ := 0
  recvbuff r := if inPlace then r * recvcount else n * recvcount
  scratchbuff _ := n * recvcount + recvcount
  op := (· + ·)
  init r a := if a < n * recvcount then send r a else 0
  two_le := hn
  redSlices_pos := Config.numRedSlices_pos S R recvcount hR
  scratch_apart r hr := by
    have hle : r * recvcount ≤ n * recvcount := Nat.mul_le_mul_right _ hr.le
    split_ifs <;> omega
  placed r hr := by
    split_ifs
    · exact .inl (zero_add _).symm
    · exact .inr (.inr (zero_add _).le)

theorem sumReduceScatter_redSlices {n recvcount S R : Nat} {inPlace : Bool} {send : Nat → Nat → Nat} (hn : 2 ≤ n)
    (hR : 0 < R) : (sumReduceScatter n recvcount S R inPlace send hn hR).redSlices = R :=
  if_neg (pos_iff_ne_zero.1 hR)

end FlagCX.UniRunner
