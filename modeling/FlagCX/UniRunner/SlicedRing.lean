import FlagCX.UniRunner.AllReduce

/-!
# The sliced ring AllReduce

Every rank runs the DAG of `initUniRunnerStateSlicedAR`: the transfers of the ring AllReduce, each of the first phase
followed by `numRedSlices` reductions that share the slice received.

* `Triggered`   : the elements of a slice that some reduction of a step reaches.
* `SlicedAllReduce.Own` : a rank on its own; every operation keeps it (`SlicedAllReduce.keeps`).
* `AllReduce.final_value` : the ring AllReduce is the one with a single reduce slice.
-/

namespace FlagCX.UniRunner

open Dag List

/-- The reductions of a slice of `total` elements over `parts` nodes reach element `k`. -/
def Triggered (total parts k : Nat) : Prop :=
  ∃ m < parts, partOffset total parts m ≤ k ∧ k < partOffset total parts m + triggerCount (partCount total parts m)

instance (total parts k : Nat) : Decidable (Triggered total parts k) := by
  unfold Triggered
  infer_instance

theorem triggerCount_le_self (count : Nat) : triggerCount count ≤ count := Nat.mod_le _ _

theorem part_of_written {total total' parts m m' j : Nat} (htotal : total' = total) (hj : j < partCount total' parts m')
    (hle : partOffset total parts m ≤ partOffset total' parts m' + j)
    (hlt : partOffset total' parts m' + j < partOffset total parts m + triggerCount (partCount total parts m)) : m' = m := by
  subst htotal
  have := triggerCount_le_self (partCount total' parts m)
  exact (part_unique hj (show partOffset total' parts m' + j - partOffset total' parts m < partCount total' parts m by omega)
    (by omega)).1

theorem triggered_part {total parts m j : Nat} (hm : m < parts) (hj : j < partCount total parts m) :
    Triggered total parts (partOffset total parts m + j) ↔ j < triggerCount (partCount total parts m) := by
  constructor
  · rintro ⟨m', hm', hle, hlt⟩
    have hj' : partOffset total parts m + j - partOffset total parts m' < partCount total parts m' := by
      have := triggerCount_le_self (partCount total parts m')
      omega
    obtain ⟨rfl, -⟩ := part_unique hj hj' (by omega)
    omega
  · exact fun h => ⟨m, hm, by omega, by omega⟩

theorem exists_untriggered {total parts m : Nat} (hm : m < parts) (hbig : 2 ^ 32 ≤ partCount total parts m) :
    ∃ k < total, ¬ Triggered total parts k := by
  have hpart := @partOffset_add_le total _ _ hm
  have hlt : triggerCount (partCount total parts m) < 2 ^ 32 := Nat.mod_lt _ (by decide)
  refine ⟨partOffset total parts m + (partCount total parts m - 1), by omega, ?_⟩
  rw [triggered_part hm (by omega)]
  omega

theorem not_triggered_two_pow : ¬ Triggered (2 ^ 32) 1 0 := fun ht =>
  absurd ((@triggered_part (2 ^ 32) 1 0 0 zero_lt_one (by decide)).1 ht) (by decide)

/-- A ring AllReduce whose ranks run the DAG of `initUniRunnerStateSlicedAR`. -/
structure SlicedAllReduce (α : Type) extends AllReduce α where
  cfg : Config
  slices_eq : cfg.uniRunnerNSlices = numSlices
  redSlices_pos : 0 < cfg.numRedSlices count

namespace SlicedAllReduce

variable {α : Type} (A : SlicedAllReduce α)

/-- The DAG rank `r` builds. -/
def slicedDag (r : Nat) : List DagNode :=
  match initUniRunnerStateSlicedAR (A.comm r) (A.buffers r) A.cfg with
  | .ok st => st.dagNodes
  | .error _ => []

/-- The number of reductions of a step. -/
abbrev redSlices : Nat := A.cfg.numRedSlices A.count

abbrev chain : Pipeline := phases A.numSlices (A.nranks - 1) (A.nranks - 1) A.redSlices

def ops (r : Nat) : Slot → NodeData
  | .p2p s i => A.data r (.p2p s i)
  | .red s i m =>
    let c := A.rx r i
    let k := partOffset (A.cnt c s) A.redSlices m
    .red ⟨A.recvbuff r + (A.off c s + k), A.sendbuff r + (A.off c s + k), A.recvbuff r + (A.off c s + k),
      partCount (A.cnt c s) A.redSlices m⟩

variable {A}

theorem p2p_slot {s i : Nat} : .p2p s i ∈ A.chain.slots ↔ s < A.numSlices ∧ i < 2 * (A.nranks - 1) := by
  rw [Pipeline.p2p_mem_slots]
  show s < A.numSlices ∧ i < A.nranks - 1 + (A.nranks - 1) ↔ _
  omega

theorem red_slot {s i m : Nat} : .red s i m ∈ A.chain.slots ↔ s < A.numSlices ∧ i < A.nranks - 1 ∧ m < A.redSlices := by
  rw [Pipeline.red_mem_slots]
  show s < A.numSlices ∧ i < A.nranks - 1 + (A.nranks - 1) ∧ m < (if i < A.nranks - 1 then A.redSlices else 0) ↔ _
  split_ifs <;> omega

theorem wired (A : SlicedAllReduce α) (r : Nat) : Wired A.chain (A.ops r) (A.slicedDag r) := by
  have hok : initUniRunnerStateSlicedAR (A.comm r) (A.buffers r) A.cfg =
      .ok (slicedAR (A.comm r) (A.buffers r) A.numSlices A.redSlices) := by
    unfold initUniRunnerStateSlicedAR
    rw [withRanks_ok A.two_le, A.slices_eq]
    rfl
  obtain ⟨es, he, hm⟩ := slicedAR_nodes (A.comm r) (A.buffers r) A.numSlices A.redSlices
  have hdag : A.slicedDag r = es.map (·.node) := by
    unfold slicedDag
    rw [hok]
    rw [he]
    rfl
  rw [hdag]
  refine Wired.of_nodes hm (fun c hc => ?_) fun c => ?_
  · cases c with
    | p2p s i => exact AllReduce.ringARData_eq r (AllReduce.p2p_mem.2 (p2p_slot.1 hc))
    | red s i m =>
      have hi := (red_slot.1 hc).2.1
      have hrx : A.rx r i = (r + A.nranks - i - 1) % A.nranks := by
        have hsum : r + 2 * A.nranks - 1 - i = r + A.nranks - i - 1 + A.nranks := by omega
        unfold AllReduce.rx
        rw [hsum, Nat.add_mod_right]
      simp only [slicedARData, ops, hrx]
      rfl
  · cases c with
    | p2p s i => exact Nat.zero_lt_two
    | red s i m => exact zero_lt_one

theorem isRing (A : SlicedAllReduce α) : IsRing A.chain A.nranks A.ops A.next A.prev where
  p2p _ _ _ := ⟨_, _, _, _, rfl⟩
  red _ _ _ _ := ⟨_, rfl⟩
  prev_lt r _ := A.prev_lt r
  next_prev _ hr := A.next_prev hr

/-! ## Values -/

variable (A)

/-- Element `k` of slice `s` of chunk `c` after that many reductions. The `i`-th is made by rank `c + i`; it combines what
was received with the rank's own contribution, which in place has been overwritten by what was received. -/
def acc (c s k : Nat) : Nat → α
  | 0 => A.init c (A.sendbuff c + (A.off c s + k))
  | i + 1 =>
    if Triggered (A.cnt c s) A.redSlices k then
      A.op (acc c s k i) (if A.sendbuff ((c + (i + 1)) % A.nranks) = A.recvbuff ((c + (i + 1)) % A.nranks) then acc c s k i
        else A.init ((c + (i + 1)) % A.nranks) (A.sendbuff ((c + (i + 1)) % A.nranks) + (A.off c s + k)))
    else acc c s k i

/-- What `recvbuff` of rank `r` holds for an element of the `m`-th reduce slice, given what has been performed. -/
def value (f : Nat → Nat → Bool) (r c s m k : Nat) : α :=
  if A.dist r c + 1 < A.nranks ∧ f (A.chain.idx (.p2p s (A.dist r c + A.nranks - 1))) 1 = true then
    A.acc c s k (A.nranks - 1)
  else if A.dist r c ≠ 0 ∧ f (A.chain.idx (.red s (A.dist r c - 1) m)) 0 = true then A.acc c s k (A.dist r c)
  else if A.dist r c ≠ 0 ∧ f (A.chain.idx (.p2p s (A.dist r c - 1))) 1 = true then A.acc c s k (A.dist r c - 1)
  else A.init r (A.recvbuff r + (A.off c s + k))

/-- The message rank `r` sends at chain position `q`. -/
def message (r q : Nat) : List α :=
  (range (A.cnt (A.tx r (q / A.numSlices)) (q % A.numSlices))).map fun k =>
    A.acc (A.tx r (q / A.numSlices)) (q % A.numSlices) k (min (q / A.numSlices) (A.nranks - 1))

structure Own (r : Nat) (x : RankState α) : Prop where
  counts : RingCounts A.chain (A.next r) (A.prev r) x
  recv_mem : ∀ c < A.nranks, ∀ s < A.numSlices, ∀ m < A.redSlices, ∀ j < partCount (A.cnt c s) A.redSlices m,
    x.mem (A.recvbuff r + (A.off c s + (partOffset (A.cnt c s) A.redSlices m + j))) =
      A.value x.fired r c s m (partOffset (A.cnt c s) A.redSlices m + j)
  send_mem : A.sendbuff r ≠ A.recvbuff r → ∀ e < A.count, x.mem (A.sendbuff r + e) = A.init r (A.sendbuff r + e)

variable {A} {x : RankState α} {r s i c m j k : Nat}

theorem message_pos (r : Nat) (hs : s < A.numSlices) : A.message r (Pos.of A.chain s i) =
    (range (A.cnt (A.tx r i) s)).map fun k => A.acc (A.tx r i) s k (min i (A.nranks - 1)) := by
  have hS : 0 < A.numSlices := by omega
  have hdiv : Pos.of A.chain s i / A.numSlices = i := by
    show (i * A.numSlices + s) / A.numSlices = i
    rw [add_comm, Nat.add_mul_div_right _ _ hS, Nat.div_eq_of_lt hs, zero_add]
  have hmod : Pos.of A.chain s i % A.numSlices = s := by
    show (i * A.numSlices + s) % A.numSlices = s
    rw [add_comm, Nat.add_mul_mod_self_right, Nat.mod_eq_of_lt hs]
  rw [message, hdiv, hmod]

theorem value_congr {f f' : Nat → Nat → Bool}
    (hgather : A.dist r c + 1 < A.nranks → f (A.chain.idx (.p2p s (A.dist r c + A.nranks - 1))) 1 =
      f' (A.chain.idx (.p2p s (A.dist r c + A.nranks - 1))) 1)
    (hred : A.dist r c ≠ 0 → f (A.chain.idx (.red s (A.dist r c - 1) m)) 0 = f' (A.chain.idx (.red s (A.dist r c - 1) m)) 0)
    (hrecv : A.dist r c ≠ 0 → f (A.chain.idx (.p2p s (A.dist r c - 1))) 1 = f' (A.chain.idx (.p2p s (A.dist r c - 1))) 1) :
    A.value f r c s m k = A.value f' r c s m k := by
  refine if_congr (and_congr_right fun h1 => ?_) rfl (if_congr (and_congr_right fun h0 => ?_) rfl
    (if_congr (and_congr_right fun h0 => ?_) rfl rfl))
  · rw [hgather h1]
  · rw [hred h0]
  · rw [hrecv h0]

section Order

variable (hclosed : Closed (A.slicedDag r) x.fired)
include hclosed

theorem later_open {a b i' : Nat} (hs : s < A.numSlices) (hi : i < 2 * (A.nranks - 1)) (ha : a < 2)
    (hopen : x.fired (A.chain.idx (.p2p s i)) a = false) (hlt : i < i') (hi' : i' < 2 * (A.nranks - 1)) :
    x.fired (A.chain.idx (.p2p s i')) b = false := by
  by_contra hno
  have hready := hclosed _ _ (by simpa using hno : x.fired (A.chain.idx (.p2p s i')) b = true)
  have hfired := (A.wired r).p2p_fired hclosed hs (p2p_slot.2 ⟨hs, hi'⟩ |> A.chain.p2p_mem_slots.1).2 hready hs
    (Pos.lt_of_step_lt (P := A.chain) hs hlt) (A.chain.p2p_mem_slots.1 (p2p_slot.2 ⟨hs, hi⟩)).2
    (k := a) (by rw [A.isRing.numOps_p2p]; exact ha)
  rw [hopen] at hfired
  cases hfired

section

variable (hs : s < A.numSlices) (hi : i < A.nranks - 1) (hm : m < A.redSlices)
include hs hi hm

theorem red_open {a : Nat} (ha : a < 2) (hopen : x.fired (A.chain.idx (.p2p s i)) a = false) :
    x.fired (A.chain.idx (.red s i m)) 0 = false := by
  by_contra hno
  have hready := hclosed _ _ (by simpa using hno : x.fired (A.chain.idx (.red s i m)) 0 = true)
  have hmem := A.chain.red_mem_slots.1 (red_slot.2 ⟨hs, hi, hm⟩)
  have hfired := (A.wired r).p2p_fired_of_red hs hmem.2.1 hmem.2.2 hready (k := a) (by rw [A.isRing.numOps_p2p]; exact ha)
  rw [hopen] at hfired
  cases hfired

theorem later_open_of_red {b i' : Nat} (hopen : x.fired (A.chain.idx (.red s i m)) 0 = false) (hlt : i < i')
    (hi' : i' < 2 * (A.nranks - 1)) : x.fired (A.chain.idx (.p2p s i')) b = false := by
  by_contra hno
  have hready := hclosed _ _ (by simpa using hno : x.fired (A.chain.idx (.p2p s i')) b = true)
  have hmem := A.chain.red_mem_slots.1 (red_slot.2 ⟨hs, hi, hm⟩)
  have hfired := (A.wired r).red_fired hclosed hs (A.chain.p2p_mem_slots.1 (p2p_slot.2 ⟨hs, hi'⟩)).2 hready hlt hmem.2.2
  rw [hopen] at hfired
  cases hfired

end

end Order

/-! ## What a rank reads -/

/-- **A send carries the value the message stands for.** -/
theorem Own.read (h : A.Own r x) (hclosed : Closed (A.slicedDag r) x.fired) (hr : r < A.nranks) (hs : s < A.numSlices)
    (hi : i < 2 * (A.nranks - 1)) (hready : LocalReady (A.slicedDag r) x.fired (A.chain.idx (.p2p s i)))
    (hfresh : x.fired (A.chain.idx (.p2p s i)) 0 = false) :
    readAt x.mem ((if i = 0 then A.sendbuff r else A.recvbuff r) + A.off (A.tx r i) s) (A.cnt (A.tx r i) s) =
      A.message r (Pos.of A.chain s i) := by
  have hw := A.wired r
  have hslot := A.chain.p2p_mem_slots.1 (p2p_slot.2 ⟨hs, hi⟩)
  have hc := A.tx_lt r i
  have hlt := A.dist_lt hr hc
  have hstep := (A.tx_eq_iff hr hc hi).1 rfl
  rw [message_pos r hs, readAt]
  refine map_congr_left fun k hk => ?_
  rw [mem_range] at hk
  obtain ⟨m, hm, j, hj, rfl⟩ := exists_part A.redSlices_pos hk
  have hmem := h.recv_mem _ hc s hs m hm j hj
  have hlater : A.dist r (A.tx r i) + 1 < A.nranks → i < A.dist r (A.tx r i) + A.nranks - 1 →
      x.fired (A.chain.idx (.p2p s (A.dist r (A.tx r i) + A.nranks - 1))) 1 = false := fun h1 h2 =>
    later_open hclosed hs hi Nat.zero_lt_two hfresh h2 (by omega)
  rw [add_assoc]
  rcases eq_zero_or_pos i with hi0 | hi0
  · -- the rank's own chunk, from `sendbuff`
    have hd : A.dist r (A.tx r i) = 0 := by omega
    have hcr := A.eq_of_dist_eq_zero hc hd
    have hopen := hlater (by omega) (by omega)
    rw [if_pos hi0, hi0, Nat.zero_min, acc]
    rw [hi0] at hcr hmem hopen hd hj
    by_cases hplace : A.sendbuff r = A.recvbuff r
    · rw [hplace, hmem, value, hopen, hd, if_neg (by simp), if_neg (by simp), if_neg (by simp), hcr, hplace]
    · have hpos := AllReduce.off_add_lt (A := A.toAllReduce) hc hs hk
      rw [hi0] at hpos
      rw [h.send_mem hplace _ hpos, hcr]
  · rw [if_neg (by omega), hmem, value]
    rcases hstep with hd | hd
    · -- a chunk this rank has reduced
      have hred := hw.red_fired hclosed hs hslot.2 hready (show A.dist r (A.tx r i) - 1 < i by omega)
        (r := m) (A.chain.red_mem_slots.1 (red_slot.2 ⟨hs, by omega, hm⟩)).2.2
      rw [if_neg, if_pos ⟨by omega, hred⟩, ← hd, min_eq_left (by omega)]
      rintro ⟨h1, h2⟩
      rw [hlater h1 (by omega)] at h2
      cases h2
    · -- a chunk received complete
      have hrecv := hw.p2p_fired hclosed hs hslot.2 hready hs
        (Pos.lt_of_step_lt (P := A.chain) hs (show A.dist r (A.tx r i) + A.nranks - 1 < i by omega))
        (A.chain.p2p_mem_slots.1 (p2p_slot.2 ⟨hs, by omega⟩)).2 (k := 1)
        (by rw [A.isRing.numOps_p2p]; exact one_lt_two)
      rw [if_pos ⟨by omega, hrecv⟩, min_eq_right (by omega)]

theorem recvbuff_cell {c' s' k' lo len : Nat} {mem : Nat → α} {g : Nat → α} (hs : s < A.numSlices) (hs' : s' < A.numSlices)
    (hk' : k' < A.cnt c' s') (hlen : lo + len ≤ A.cnt c s) :
    writeAt mem (A.recvbuff r + (A.off c s + lo)) len g (A.recvbuff r + (A.off c' s' + k')) =
      if c' = c ∧ s' = s ∧ lo ≤ k' ∧ k' < lo + len then g (k' - lo) else mem (A.recvbuff r + (A.off c' s' + k')) := by
  unfold writeAt
  by_cases hin : A.recvbuff r + (A.off c s + lo) ≤ A.recvbuff r + (A.off c' s' + k') ∧
      A.recvbuff r + (A.off c' s' + k') < A.recvbuff r + (A.off c s + lo) + len
  · obtain ⟨rfl, rfl, hj⟩ := AllReduce.elem_unique hs'
      hk' hs (show A.off c' s' + k' - A.off c s < A.cnt c s by omega) (by omega)
    rw [if_pos hin, if_pos ⟨rfl, rfl, by omega, by omega⟩]
    congr 1
    omega
  · rw [if_neg hin, if_neg]
    rintro ⟨rfl, rfl, h1, h2⟩
    omega

theorem sendbuff_cell {lo len e : Nat} {mem : Nat → α} {g : Nat → α} (hr : r < A.nranks) (hc : c < A.nranks)
    (hs : s < A.numSlices) (hlen : lo + len ≤ A.cnt c s) (hplace : A.sendbuff r ≠ A.recvbuff r) (he : e < A.count) :
    writeAt mem (A.recvbuff r + (A.off c s + lo)) len g (A.sendbuff r + e) = mem (A.sendbuff r + e) := by
  refine writeAt_of_not _ _ ?_
  rintro ⟨h₁, h₂⟩
  have hlast := AllReduce.off_add_lt (A := A.toAllReduce) hc hs
    (show A.sendbuff r + e - (A.recvbuff r + A.off c s) < A.cnt c s by omega)
  rcases A.placed r hr with h | h | h <;> omega

/-! ## Operations -/

theorem Own.send (h : A.Own r x) (hclosed : Closed (A.slicedDag r) x.fired) (hs : s < A.numSlices)
    (hi : i < 2 * (A.nranks - 1)) (hready : LocalReady (A.slicedDag r) x.fired (A.chain.idx (.p2p s i)))
    (hfresh : x.fired (A.chain.idx (.p2p s i)) 0 = false) {y : RankState α} (hf : y.fired = x.fired) (hm : y.mem = x.mem)
    (hsent : y.sent = Function.update x.sent (A.next r) (x.sent (A.next r) + 1)) (hrecvd : y.recvd = x.recvd)
    (hr : r < A.nranks) : A.Own r (y.mark (A.chain.idx (.p2p s i)) 0) := by
  have hslot := A.chain.p2p_mem_slots.1 (p2p_slot.2 ⟨hs, hi⟩)
  have hpos := h.counts.sent_eq (A.wired r) hclosed (A.isRing.numOps_p2p r) hs hslot.2 hready hfresh
  refine ⟨h.counts.mark_send hs hslot.2 hpos hf hsent hrecvd, fun c hc s' hs' m hm' j hj => ?_, ?_⟩
  · have hlt := A.dist_lt hr hc
    show y.mem _ = _
    rw [hm, h.recv_mem c hc s' hs' m hm' j hj]
    refine value_congr (fun h1 => ?_) (fun h0 => ?_) fun h0 => ?_
    · rw [Wired.mark_fired (p2p_slot.2 ⟨hs, hi⟩) (p2p_slot.2 ⟨hs', by omega⟩), if_neg (by simp), hf]
    · rw [Wired.mark_fired (p2p_slot.2 ⟨hs, hi⟩) (red_slot.2 ⟨hs', by omega, hm'⟩), if_neg (by simp), hf]
    · rw [Wired.mark_fired (p2p_slot.2 ⟨hs, hi⟩) (p2p_slot.2 ⟨hs', by omega⟩), if_neg (by simp), hf]
  · show _ → ∀ e < A.count, y.mem _ = _
    rw [hm]
    exact h.send_mem

theorem Own.recv (h : A.Own r x) (hclosed : Closed (A.slicedDag r) x.fired) (hr : r < A.nranks) (hs : s < A.numSlices)
    (hi : i < 2 * (A.nranks - 1)) (hready : LocalReady (A.slicedDag r) x.fired (A.chain.idx (.p2p s i)))
    (hfresh : x.fired (A.chain.idx (.p2p s i)) 1 = false) {y : RankState α} (hf : y.fired = x.fired)
    (hm : y.mem = writeAt x.mem (A.recvbuff r + A.off (A.rx r i) s) (A.cnt (A.rx r i) s) fun j =>
      (A.message (A.prev r) (x.recvd (A.prev r))).getD j (x.mem (A.recvbuff r + A.off (A.rx r i) s + j)))
    (hsent : y.sent = x.sent) (hrecvd : y.recvd = Function.update x.recvd (A.prev r) (x.recvd (A.prev r) + 1)) :
    A.Own r (y.mark (A.chain.idx (.p2p s i)) 1) := by
  have hslot := A.chain.p2p_mem_slots.1 (p2p_slot.2 ⟨hs, hi⟩)
  have hpos := h.counts.recvd_eq (A.wired r) hclosed (A.isRing.numOps_p2p r) hs hslot.2 hready hfresh
  have hrx := A.rx_lt r i
  have htx : A.tx (A.prev r) i = A.rx r i := by rw [← A.rx_next (A.prev_lt r) hi, A.next_prev hr]
  rw [← hpos, message_pos _ hs, htx] at hm
  refine ⟨h.counts.mark_recv hs hslot.2 hpos hf hsent hrecvd, fun c hc s' hs' m hm' j hj => ?_, fun hplace e he => ?_⟩
  · have hlt := A.dist_lt hr hc
    have hk : partOffset (A.cnt c s') A.redSlices m + j < A.cnt c s' := by
      have := @partOffset_add_le (A.cnt c s') _ _ hm'
      omega
    have hstep := A.rx_eq_iff hr hc hi
    show y.mem _ = _
    rw [hm, ← add_zero (A.off (A.rx r i) s), recvbuff_cell hs hs' hk (by omega)]
    by_cases hslice : c = A.rx r i ∧ s' = s
    · -- the slice received
      obtain ⟨hcr, rfl⟩ := hslice
      rw [← hcr, if_pos ⟨rfl, rfl, Nat.zero_le _, by omega⟩, Nat.sub_zero, value]
      have hget : ((range (A.cnt c s')).map fun k => A.acc c s' k (min i (A.nranks - 1))).getD
          (partOffset (A.cnt c s') A.redSlices m + j)
          (x.mem (A.recvbuff r + (A.off c s' + 0) + (partOffset (A.cnt c s') A.redSlices m + j))) =
          A.acc c s' (partOffset (A.cnt c s') A.redSlices m + j) (min i (A.nranks - 1)) := by
        simp [getD_eq_getElem?_getD, hk]
      rw [hget]
      have hmark : (y.mark (A.chain.idx (.p2p s' i)) 1).fired (A.chain.idx (.p2p s' i)) 1 = true := by
        rw [Wired.mark_fired (p2p_slot.2 ⟨hs, hi⟩) (p2p_slot.2 ⟨hs, hi⟩), if_pos ⟨rfl, rfl⟩]
      rcases hstep.1 hcr.symm with hd | hd
      · rw [if_neg, if_neg, if_pos, ← hd, Nat.add_sub_cancel, min_eq_left (by omega)]
        · rw [← hd, Nat.add_sub_cancel]
          exact ⟨by omega, hmark⟩
        · rintro ⟨-, hred⟩
          rw [← hd, Nat.add_sub_cancel, Wired.mark_fired (p2p_slot.2 ⟨hs, hi⟩) (red_slot.2 ⟨hs, by omega, hm'⟩),
            if_neg (by simp), hf, red_open hclosed hs (by omega) hm' one_lt_two hfresh] at hred
          cases hred
        · rintro ⟨h1, hgather⟩
          rw [Wired.mark_fired (p2p_slot.2 ⟨hs, hi⟩) (p2p_slot.2 ⟨hs, by omega⟩), if_neg, hf,
            later_open hclosed hs hi one_lt_two hfresh (by omega) (by omega)] at hgather
          · cases hgather
          · rintro ⟨he, -⟩
            have := (Slot.p2p.inj he).2
            omega
      · rw [show A.dist r c + A.nranks - 1 = i by omega, if_pos ⟨by omega, hmark⟩, min_eq_right (by omega)]
    · -- other slices do not notice
      rw [if_neg fun hin => hslice ⟨hin.1, hin.2.1⟩, h.recv_mem c hc s' hs' m hm' j hj]
      refine value_congr (fun h1 => ?_) (fun h0 => ?_) fun h0 => ?_
      · rw [Wired.mark_fired (p2p_slot.2 ⟨hs, hi⟩) (p2p_slot.2 ⟨hs', by omega⟩), if_neg, hf]
        rintro ⟨he, -⟩
        obtain ⟨rfl, he⟩ := Slot.p2p.inj he
        exact hslice ⟨(hstep.2 (.inr (by omega))).symm, rfl⟩
      · rw [Wired.mark_fired (p2p_slot.2 ⟨hs, hi⟩) (red_slot.2 ⟨hs', by omega, hm'⟩), if_neg (by simp), hf]
      · rw [Wired.mark_fired (p2p_slot.2 ⟨hs, hi⟩) (p2p_slot.2 ⟨hs', by omega⟩), if_neg, hf]
        rintro ⟨he, -⟩
        obtain ⟨rfl, he⟩ := Slot.p2p.inj he
        exact hslice ⟨(hstep.2 (.inl (by omega))).symm, rfl⟩
  · show y.mem _ = _
    rw [hm, ← add_zero (A.off (A.rx r i) s), sendbuff_cell hr hrx hs (by omega) hplace he]
    exact h.send_mem hplace e he

theorem Own.red (h : A.Own r x) (hclosed : Closed (A.slicedDag r) x.fired) (hr : r < A.nranks) (hs : s < A.numSlices)
    (hi : i < A.nranks - 1) (hm : m < A.redSlices)
    (hready : LocalReady (A.slicedDag r) x.fired (A.chain.idx (.red s i m)))
    (hfresh : x.fired (A.chain.idx (.red s i m)) 0 = false) {y : RankState α} (hf : y.fired = x.fired)
    (hy : y.mem = writeAt x.mem (A.recvbuff r + (A.off (A.rx r i) s + partOffset (A.cnt (A.rx r i) s) A.redSlices m))
      (triggerCount (partCount (A.cnt (A.rx r i) s) A.redSlices m)) fun j => A.op
        (x.mem (A.recvbuff r + (A.off (A.rx r i) s + partOffset (A.cnt (A.rx r i) s) A.redSlices m) + j))
        (x.mem (A.sendbuff r + (A.off (A.rx r i) s + partOffset (A.cnt (A.rx r i) s) A.redSlices m) + j)))
    (hsent : y.sent = x.sent) (hrecvd : y.recvd = x.recvd) : A.Own r (y.mark (A.chain.idx (.red s i m)) 0) := by
  have hslot := red_slot.2 ⟨hs, hi, hm⟩
  have hmem := A.chain.red_mem_slots.1 hslot
  have hrx := A.rx_lt r i
  have hd : A.dist r (A.rx r i) = i + 1 := by
    rcases (A.rx_eq_iff hr hrx (by omega)).1 rfl with hd | hd <;> omega
  have htrigger := triggerCount_le_self (partCount (A.cnt (A.rx r i) s) A.redSlices m)
  have hpart := @partOffset_add_le (A.cnt (A.rx r i) s) _ _ hm
  -- what the reduction reads
  have hread : ∀ j < partCount (A.cnt (A.rx r i) s) A.redSlices m,
      x.mem (A.recvbuff r + (A.off (A.rx r i) s + (partOffset (A.cnt (A.rx r i) s) A.redSlices m + j))) =
        A.acc (A.rx r i) s (partOffset (A.cnt (A.rx r i) s) A.redSlices m + j) i := by
    intro j hj
    rw [h.recv_mem _ hrx s hs m hm j hj, value, hd, Nat.add_sub_cancel, hfresh, if_neg, if_neg (by simp), if_pos]
    · exact ⟨by omega, (A.wired r).p2p_fired_of_red hs hmem.2.1 hmem.2.2 hready
        (by rw [A.isRing.numOps_p2p]; exact one_lt_two)⟩
    · rintro ⟨h1, hgather⟩
      rw [later_open_of_red hclosed hs hi hm hfresh (by omega) (by omega)] at hgather
      cases hgather
  refine ⟨h.counts.mark_of_ne hslot hf hsent hrecvd nofun, fun c hc s' hs' m' hm' j hj => ?_, fun hplace e he => ?_⟩
  · have hlt := A.dist_lt hr hc
    have hk : partOffset (A.cnt c s') A.redSlices m' + j < A.cnt c s' := by
      have := @partOffset_add_le (A.cnt c s') _ _ hm'
      omega
    show y.mem _ = _
    rw [hy, recvbuff_cell hs hs' hk (by omega)]
    by_cases hpiece : c = A.rx r i ∧ s' = s ∧ m' = m
    · obtain ⟨rfl, rfl, rfl⟩ := hpiece
      have hmark : (y.mark (A.chain.idx (.red s' i m')) 0).fired (A.chain.idx (.red s' i m')) 0 = true := by
        rw [Wired.mark_fired hslot hslot, if_pos ⟨rfl, rfl⟩]
      have hvalue : A.value (y.mark (A.chain.idx (.red s' i m')) 0).fired r (A.rx r i) s' m'
          (partOffset (A.cnt (A.rx r i) s') A.redSlices m' + j) =
          A.acc (A.rx r i) s' (partOffset (A.cnt (A.rx r i) s') A.redSlices m' + j) (i + 1) := by
        rw [value, hd, Nat.add_sub_cancel, if_neg, if_pos ⟨by omega, hmark⟩]
        rintro ⟨h1, hgather⟩
        rw [Wired.mark_fired hslot (p2p_slot.2 ⟨hs, by omega⟩), if_neg (by simp), hf,
          later_open_of_red hclosed hs hi hm hfresh (by omega) (by omega)] at hgather
        cases hgather
      rw [hvalue, acc, A.add_dist hr hrx hd]
      by_cases hj' : j < triggerCount (partCount (A.cnt (A.rx r i) s') A.redSlices m')
      · rw [if_pos ⟨rfl, rfl, by omega, by omega⟩, if_pos ((triggered_part hm hj).2 hj'), Nat.add_sub_cancel_left,
          Nat.add_assoc, Nat.add_assoc, hread j hj, Nat.add_assoc, Nat.add_assoc]
        congr 1
        by_cases hplace : A.sendbuff r = A.recvbuff r
        · rw [if_pos hplace, hplace, hread j hj]
        · rw [if_neg hplace]
          exact h.send_mem hplace _ (AllReduce.off_add_lt hc hs hk)
      · rw [if_neg (by omega), if_neg fun ht => hj' ((triggered_part hm hj).1 ht)]
        exact hread j hj
    · have hout : ¬ (c = A.rx r i ∧ s' = s ∧
          partOffset (A.cnt (A.rx r i) s) A.redSlices m ≤ partOffset (A.cnt c s') A.redSlices m' + j ∧
          partOffset (A.cnt c s') A.redSlices m' + j < partOffset (A.cnt (A.rx r i) s) A.redSlices m +
            triggerCount (partCount (A.cnt (A.rx r i) s) A.redSlices m)) := by
        rintro ⟨rfl, rfl, h1, h2⟩
        exact hpiece ⟨rfl, rfl, part_of_written rfl hj h1 h2⟩
      rw [if_neg hout, h.recv_mem c hc s' hs' m' hm' j hj]
      refine value_congr (fun h1 => ?_) (fun h0 => ?_) fun h0 => ?_
      · rw [Wired.mark_fired hslot (p2p_slot.2 ⟨hs', by omega⟩), if_neg (by simp), hf]
      · rw [Wired.mark_fired hslot (red_slot.2 ⟨hs', by omega, hm'⟩), if_neg, hf]
        rintro ⟨he, -⟩
        obtain ⟨rfl, he, rfl⟩ := Slot.red.inj he
        exact hpiece ⟨((A.rx_eq_iff hr hc (by omega)).2 (.inl (by omega))).symm, rfl, rfl⟩
      · rw [Wired.mark_fired hslot (p2p_slot.2 ⟨hs', by omega⟩), if_neg (by simp), hf]
  · show y.mem _ = _
    rw [hy, sendbuff_cell hr hrx hs (by omega) hplace he]
    exact h.send_mem hplace e he

/-! ## Runs -/

variable (A)

theorem keeps (hr : r < A.nranks) : Keeps (A.slicedDag r) A.op (fun p => A.message p) (fun _ => A.message r) (A.Own r) := by
  refine (A.wired r).keeps fun x hx hclosed c hc k hready hfresh => ?_
  cases c with
  | p2p s i =>
    obtain ⟨hs, hi⟩ := p2p_slot.1 hc
    match k with
    | 0 =>
      have hslot := A.chain.p2p_mem_slots.1 hc
      have hread := hx.read hclosed hr hs hi hready hfresh
      rw [hx.counts.sent_eq (A.wired r) hclosed (A.isRing.numOps_p2p r) hs hslot.2 hready hfresh] at hread
      refine ⟨fun peer addr count hop => ?_, fun x' hx' => ?_⟩
      · cases hop
        exact hread
      · cases hx'
        exact hx.send hclosed hs hi hready hfresh rfl rfl rfl rfl hr
    | 1 =>
      refine ⟨fun peer addr count hop => ?_, fun x' hx' => ?_⟩
      · cases hop
      · cases hx'
        exact hx.recv hclosed hr hs hi hready hfresh rfl rfl rfl rfl
    | k + 2 => exact ⟨nofun, nofun⟩
  | red s i m =>
    obtain ⟨hs, hi, hm⟩ := red_slot.1 hc
    match k with
    | 0 =>
      refine ⟨trivial, fun x' hx' => ?_⟩
      cases hx'
      exact hx.red hclosed hr hs hi hm hready hfresh rfl rfl rfl rfl
    | k + 1 => exact ⟨trivial, nofun⟩

theorem own_start (r : Nat) : A.Own r ⟨fun _ _ => false, A.init r, fun _ => 0, fun _ => 0⟩ := by
  refine ⟨.start _ _ _ _, fun c hc s hs m hm j hj => ?_, fun _ _ _ => rfl⟩
  simp [value]

def SlicedEnds (w : World α) : Prop := Run A.nranks A.slicedDag A.op (World.start A.init) w ∧ Complete A.nranks A.slicedDag w

variable {A} {w : World α}

/-- **From every reachable world the ranks can finish.** -/
theorem exists_finish (h : Run A.nranks A.slicedDag A.op (World.start A.init) w) :
    ∃ w', Run A.nranks A.slicedDag A.op w w' ∧ Complete A.nranks A.slicedDag w' :=
  exists_complete_of_times (M := fun a _ => A.message a) (L := A.Own) (fun _ hr => A.keeps hr)
    (A.isRing.timed (fun r _ => A.wired r) fun _ _ _ hx => hx.counts) (fun r _ => A.own_start r) h

theorem SlicedEnds.value (h : A.SlicedEnds w) (hr : r < A.nranks) (hc : c < A.nranks)
    (hs : s < A.numSlices) (hk : k < A.cnt c s) :
    w.mem r (A.recvbuff r + (A.off c s + k)) = A.acc c s k (A.nranks - 1) := by
  have hn := A.two_le
  have hlt := A.dist_lt hr hc
  obtain ⟨sent, recvd, hsplit⟩ := splits_of_run (M := fun a _ => A.message a) (L := A.Own) (fun _ hr => A.keeps hr)
    (fun r _ => A.own_start r) h.1
  obtain ⟨m, hm, j, hj, rfl⟩ := exists_part A.redSlices_pos hk
  have hmem : w.mem r _ = _ := (hsplit.own r hr).recv_mem c hc s hs m hm j hj
  have hfired : (w.rank sent recvd r).fired = w.fired r := rfl
  rw [hmem, hfired, SlicedAllReduce.value]
  by_cases hd : A.dist r c + 1 < A.nranks
  · rw [if_pos ⟨hd, h.2.fired hr (A.wired r) (p2p_slot.2 ⟨hs, by omega⟩) (by rw [A.isRing.numOps_p2p]; exact one_lt_two)⟩]
  · rw [if_neg fun h1 => hd h1.1,
      if_pos ⟨by omega, h.2.fired hr (A.wired r) (red_slot.2 ⟨hs, by omega, hm⟩) zero_lt_one⟩,
      show A.dist r c = A.nranks - 1 by omega]

theorem acc_eq (h : Triggered (A.cnt c s) A.redSlices k ↔ k < triggerCount (A.cnt c s)) (i : Nat) :
    A.acc c s k i = A.toAllReduce.acc c s k i := by
  induction i with
  | zero => rfl
  | succ i ih =>
    rw [acc, AllReduce.acc, ih]
    exact if_congr h rfl rfl

end SlicedAllReduce

/-! ## One reduce slice -/

theorem partOffset_one (total : Nat) : partOffset total 1 0 = 0 := by simp [partOffset]

theorem partCount_one (total : Nat) : partCount total 1 0 = total := by simp [partCount, Nat.mod_one]

theorem triggered_one {total k : Nat} (hk : k < total) : Triggered total 1 k ↔ k < triggerCount total := by
  have hpart := @triggered_part total 1 0 k zero_lt_one (hk.trans_eq (partCount_one total).symm)
  rwa [partOffset_one, partCount_one, zero_add] at hpart

namespace AllReduce

variable {α : Type} (A : AllReduce α)

def whole : SlicedAllReduce α where
  toAllReduce := A
  cfg := ⟨A.numSlices, 1, 0, 0⟩
  slices_eq := rfl
  redSlices_pos := zero_lt_one

theorem whole_wired (r : Nat) : Wired A.whole.chain (A.whole.ops r) (A.dag r) := by
  have hdata : ∀ c ∈ A.whole.chain.slots, A.data r c = A.whole.ops r c := fun c hc => by
    cases c with
    | p2p s i => rfl
    | red s i m =>
      obtain rfl : m = 0 := (red_mem.1 hc).2.2
      show NodeData.red _ = .red ⟨_ + (_ + partOffset _ 1 0), _ + (_ + partOffset _ 1 0), _ + (_ + partOffset _ 1 0),
        partCount _ 1 0⟩
      rw [partOffset_one, partCount_one]
      rfl
  obtain ⟨es, he, hm⟩ := (A.wired r).nodes
  rw [he]
  exact .of_nodes hm hdata (A.whole.wired r).numOps_pos

variable {A} {w : World α} {r c s j : Nat}

/-- **From every reachable world the ranks can finish.** -/
theorem exists_complete (h : A.RunRel (World.start A.init) w) : ∃ w', A.RunRel w w' ∧ Complete A.nranks A.dag w' := by
  have hdag : ∀ r < A.nranks, Wired A.whole.chain (A.whole.ops r) (A.dag r) := fun r _ => A.whole_wired r
  have hsliced : ∀ r < A.nranks, Wired A.whole.chain (A.whole.ops r) (A.whole.slicedDag r) := fun r _ => A.whole.wired r
  obtain ⟨w', hrun, hcomplete⟩ := SlicedAllReduce.exists_finish (A := A.whole) (h.of_wired hdag hsliced)
  exact ⟨w', hrun.of_wired hsliced hdag, hcomplete.of_wired hsliced hdag⟩

/-- **At the end, `recvbuff` holds on every rank the value of the chunk after all reductions.** -/
theorem final_value (h : A.RunRel (World.start A.init) w) (hcomplete : Complete A.nranks A.dag w)
    (hr : r < A.nranks) (hc : c < A.nranks) (hs : s < A.numSlices) (hj : j < A.cnt c s) :
    w.mem r (A.recvbuff r + (A.off c s + j)) = A.acc c s j (A.nranks - 1) := by
  have hdag : ∀ r < A.nranks, Wired A.whole.chain (A.whole.ops r) (A.dag r) := fun r _ => A.whole_wired r
  have hsliced : ∀ r < A.nranks, Wired A.whole.chain (A.whole.ops r) (A.whole.slicedDag r) := fun r _ => A.whole.wired r
  have hends : A.whole.SlicedEnds w := ⟨h.of_wired hdag hsliced, hcomplete.of_wired hdag hsliced⟩
  exact (hends.value hr hc hs hj).trans (SlicedAllReduce.acc_eq (A := A.whole) (triggered_one hj) _)

end AllReduce

end FlagCX.UniRunner
