import FlagCX.Lib.Dag

/-!
# Pipelined chains

`slices` copies of a chain of `steps` transfers, where the transfer of step `i` is followed by `reds i` reductions.
The transfers form one chain that goes through all the slices of a step before the next step; the reductions of a
step wait for the transfer of the step, and the next transfer of the slice waits for them.

* `Pipeline.numbering` : the slots in slice-major order with their closed positions.
* `Pipeline.wiring`    : children and parents of every slot, and the topological key.
-/

namespace FlagCX.Dag
open List

structure Pipeline where
  slices : Nat
  steps : Nat
  reds : Nat → Nat

/-- A node of a pipelined chain: the transfer of a step of a slice, or one of its reductions. -/
inductive Slot where
  | p2p (s i : Nat)
  | red (s i r : Nat)
deriving DecidableEq, Repr

namespace Pipeline

variable (P : Pipeline)

/-! ## Positions -/

/-- The position of step `i` inside its slice. -/
def off : Nat → Nat
  | 0 => 0
  | i + 1 => off i + (1 + P.reds i)

def nodesPerSlice : Nat := P.off P.steps

def idx : Slot → Nat
  | .p2p s i => s * P.nodesPerSlice + P.off i
  | .red s i r => s * P.nodesPerSlice + P.off i + 1 + r

def stepSlots (s i : Nat) : List Slot := .p2p s i :: (range (P.reds i)).map (.red s i)

def sliceSlots (s : Nat) : List Slot := (range P.steps).flatMap (P.stepSlots s)

def slots : List Slot := (range P.slices).flatMap P.sliceSlots

theorem stepSlots_length (s i : Nat) : (P.stepSlots s i).length = 1 + P.reds i := by simp [stepSlots, add_comm]

theorem flatMap_range_succ {β : Type} (k : Nat) (f : Nat → List β) :
    (range (k + 1)).flatMap f = (range k).flatMap f ++ f k := by
  rw [range_succ, flatMap_append, flatMap_singleton]

theorem map_idx_steps (s k : Nat) :
    ((range k).flatMap (P.stepSlots s)).map P.idx = (range (P.off k)).map (s * P.nodesPerSlice + ·) := by
  induction k with
  | zero => rfl
  | succ k ih =>
    have hstep : (P.stepSlots s k).map P.idx =
        ((range (1 + P.reds k)).map (P.off k + ·)).map (s * P.nodesPerSlice + ·) := by
      rw [add_comm 1, range_succ_eq_map]
      simp only [stepSlots, map_cons, map_map, idx]
      refine congrArg₂ _ (by simp) (map_congr_left fun r _ => ?_)
      simp only [Function.comp_apply, idx]
      omega
    rw [flatMap_range_succ, map_append, ih, hstep, off, ← map_append, ← range_add]

theorem map_idx_slices (k : Nat) : ((range k).flatMap P.sliceSlots).map P.idx = range (k * P.nodesPerSlice) := by
  induction k with
  | zero => simp
  | succ k ih =>
    rw [flatMap_range_succ, map_append, ih, sliceSlots, map_idx_steps, Nat.succ_mul, range_add]
    rfl

theorem sliceSlots_length (s : Nat) : (P.sliceSlots s).length = P.nodesPerSlice := by
  have h := congrArg length (P.map_idx_steps s P.steps)
  rwa [length_map, length_map, length_range] at h

theorem slots_length : P.slots.length = P.slices * P.nodesPerSlice := by
  have h := congrArg length (P.map_idx_slices P.slices)
  rwa [length_map, length_range] at h

def numbering : Numbering Slot where
  slots := P.slots
  idx := P.idx
  number := by rw [slots_length]; exact P.map_idx_slices P.slices

@[simp] theorem numbering_slots : P.numbering.slots = P.slots := rfl

@[simp] theorem numbering_idx : P.numbering.idx = P.idx := rfl

variable {s i : Nat}

@[simp] theorem p2p_mem_slots : .p2p s i ∈ P.slots ↔ s < P.slices ∧ i < P.steps := by simp [slots, sliceSlots, stepSlots]

@[simp] theorem red_mem_slots {r : Nat} : .red s i r ∈ P.slots ↔ s < P.slices ∧ i < P.steps ∧ r < P.reds i := by
  simp [slots, sliceSlots, stepSlots]

/-! ## Edges -/

/-- The transfer after `(s, i)`: the same step of the next slice, else the next step of the first slice. -/
def next (s i : Nat) : List Slot :=
  if s + 1 < P.slices then [.p2p (s + 1) i] else if i + 1 < P.steps then [.p2p 0 (i + 1)] else []

def prev (s i : Nat) : List Slot :=
  if 0 < s then [.p2p (s - 1) i] else if 0 < i then [.p2p (P.slices - 1) (i - 1)] else []

def redsOf (s i : Nat) : List Slot := (range (P.reds i)).map (.red s i)

def kids : Slot → List Slot
  | .p2p s i => P.next s i ++ P.redsOf s i
  | .red s i _ => if i + 1 < P.steps then [.p2p s (i + 1)] else []

def parents : Slot → List Slot
  | .p2p s i => P.prev s i ++ if 0 < i then P.redsOf s (i - 1) else []
  | .red s i _ => [.p2p s i]

/-- Transfers of a step come `slices` apart from its reductions and from the next step. -/
def key : Slot → Nat
  | .p2p s i => 2 * i * P.slices + s
  | .red s i _ => (2 * i + 1) * P.slices + s

variable {c : Slot}

theorem mem_redsOf : c ∈ P.redsOf s i ↔ ∃ r < P.reds i, c = .red s i r := by simp [redsOf, eq_comm]

theorem count_redsOf_red (s i t j r : Nat) :
    (P.redsOf s i).count (.red t j r) = if t = s ∧ j = i ∧ r < P.reds i then 1 else 0 := by
  have hn : (P.redsOf s i).Nodup := List.Nodup.map (fun a b h => by injection h) nodup_range
  rw [hn.count]
  refine if_congr ?_ rfl rfl
  simp [redsOf]
  grind

theorem count_redsOf_p2p (s i t j : Nat) : (P.redsOf s i).count (.p2p t j) = 0 := by
  rw [count_eq_zero, mem_redsOf]
  rintro ⟨r, -, h⟩
  cases h

theorem count_next {t j : Nat} (hs : s < P.slices) (hi : i < P.steps) (ht : t < P.slices) (hj : j < P.steps) :
    (P.next s i).count (.p2p t j) = (P.prev t j).count (.p2p s i) := by
  unfold next prev
  split_ifs <;> simp only [count_nil, count_singleton, beq_iff_eq, Slot.p2p.injEq] <;>
    split_ifs <;> omega

theorem count_next_red (s i t j r : Nat) : (P.next s i).count (.red t j r) = 0 := by
  unfold next
  split_ifs <;> simp

theorem count_prev_red (s i t j r : Nat) : (P.prev s i).count (.red t j r) = 0 := by
  unfold prev
  split_ifs <;> simp

variable {d : Slot}

theorem count_kids (hc : c ∈ P.slots) (hd : d ∈ P.slots) : (P.kids c).count d = (P.parents d).count c := by
  cases c with
  | p2p s i =>
    obtain ⟨hs, hi⟩ := P.p2p_mem_slots.1 hc
    cases d with
    | p2p t j =>
      obtain ⟨ht, hj⟩ := P.p2p_mem_slots.1 hd
      simp only [kids, parents, count_append, count_redsOf_p2p, P.count_next hs hi ht hj]
      split_ifs <;> simp [count_redsOf_p2p]
    | red t j r =>
      obtain ⟨ht, hj, hr⟩ := P.red_mem_slots.1 hd
      simp only [kids, parents, count_append, count_next_red, count_redsOf_red, count_singleton,
        beq_iff_eq, Slot.p2p.injEq]
      by_cases h : t = s ∧ j = i
      · obtain ⟨rfl, rfl⟩ := h
        simp [hr]
      · rw [if_neg (by tauto), if_neg (by tauto)]
  | red s i r =>
    obtain ⟨hs, hi, hr⟩ := P.red_mem_slots.1 hc
    cases d with
    | p2p t j =>
      obtain ⟨ht, hj⟩ := P.p2p_mem_slots.1 hd
      simp only [kids, parents, count_append, count_prev_red, zero_add]
      by_cases h : s = t ∧ i + 1 = j
      · obtain ⟨rfl, rfl⟩ := h
        simp [hj, count_redsOf_red, hr]
      · have h₁ : ∀ x, x = (if 0 < j then P.redsOf t (j - 1) else []) → x.count (.red s i r) = 0 := by
          rintro x rfl
          split_ifs with hj0
          · rw [count_redsOf_red, if_neg (by omega)]
          · rfl
        rw [h₁ _ rfl]
        split_ifs with hi1
        · rw [count_singleton, if_neg (by rw [beq_iff_eq, Slot.p2p.injEq]; exact h)]
        · rfl
    | red t j q =>
      simp only [kids, parents]
      split_ifs <;> simp

theorem kids_mem (hc : c ∈ P.slots) (hd : d ∈ P.kids c) : d ∈ P.slots := by
  cases c with
  | p2p s i =>
    obtain ⟨hs, hi⟩ := P.p2p_mem_slots.1 hc
    rcases mem_append.1 hd with hd | hd
    · unfold next at hd
      split_ifs at hd <;> simp at hd <;> subst hd <;> rw [p2p_mem_slots] <;> omega
    · obtain ⟨r, hr, rfl⟩ := P.mem_redsOf.1 hd
      exact P.red_mem_slots.2 ⟨hs, hi, hr⟩
  | red s i r =>
    obtain ⟨hs, -, -⟩ := P.red_mem_slots.1 hc
    simp only [kids] at hd
    split_ifs at hd with hi <;> simp at hd
    subst hd
    exact P.p2p_mem_slots.2 ⟨hs, hi⟩

theorem parents_mem (hd : d ∈ P.slots) (hc : c ∈ P.parents d) : c ∈ P.slots := by
  cases d with
  | p2p s i =>
    obtain ⟨hs, hi⟩ := P.p2p_mem_slots.1 hd
    rcases mem_append.1 hc with hc | hc
    · unfold prev at hc
      split_ifs at hc <;> simp at hc <;> subst hc <;> rw [p2p_mem_slots] <;> omega
    · split_ifs at hc
      · obtain ⟨r, hr, rfl⟩ := P.mem_redsOf.1 hc
        exact P.red_mem_slots.2 ⟨hs, by omega, hr⟩
      · simp at hc
  | red s i r =>
    obtain ⟨hs, hi, -⟩ := P.red_mem_slots.1 hd
    obtain rfl : c = .p2p s i := by simpa [parents] using hc
    exact P.p2p_mem_slots.2 ⟨hs, hi⟩

theorem key_lt (hc : c ∈ P.slots) (hd : d ∈ P.kids c) : P.key c < P.key d := by
  cases c with
  | p2p s i =>
    obtain ⟨hs, hi⟩ := P.p2p_mem_slots.1 hc
    rcases mem_append.1 hd with hd | hd
    · unfold next at hd
      split_ifs at hd <;> simp at hd <;> subst hd <;> simp only [key]
      · omega
      · have : 2 * (i + 1) * P.slices = 2 * i * P.slices + 2 * P.slices := by ring
        omega
    · obtain ⟨r, -, rfl⟩ := P.mem_redsOf.1 hd
      have : (2 * i + 1) * P.slices = 2 * i * P.slices + P.slices := by ring
      simp only [key]
      omega
  | red s i r =>
    obtain ⟨hs, -, -⟩ := P.red_mem_slots.1 hc
    simp only [kids] at hd
    split_ifs at hd <;> simp at hd
    subst hd
    have : 2 * (i + 1) * P.slices = (2 * i + 1) * P.slices + P.slices := by ring
    simp only [key]
    omega

def wiring : Wiring P.numbering where
  kids := P.kids
  parents := P.parents
  key := P.key
  kids_mem _ hc _ hd := P.kids_mem hc hd
  parents_mem _ hd _ hc := P.parents_mem hd hc
  count_kids _ hc _ hd := P.count_kids hc hd
  key_lt _ hc _ hd := P.key_lt hc hd

theorem parents_eq_nil (hc : c ∈ P.slots) : P.parents c = [] ↔ c = .p2p 0 0 := by
  cases c with
  | p2p s i =>
    simp only [parents, prev, append_eq_nil_iff, Slot.p2p.injEq]
    split_ifs <;> simp <;> omega
  | red s i r => simp [parents]

end Pipeline

end FlagCX.Dag
