import FlagCX.UniRunner.SlicedRing

/-!
# The ring AllReduce: results

* `allReduce_correct_iff` : out of place, exactly the inputs on which every complete run is right.
* `inPlace_same_iff`      : exactly the inputs on which running in place gives what running out of place gives. In place
  a rank's contribution is overwritten by the receive before the reduction reads it.
-/

namespace FlagCX.UniRunner

/-! ## Reductions over the ranks -/

/-- `x 0`, …, `x k` combined in this order. -/
def foldRanks {α : Type} (op : α → α → α) (x : Nat → α) : Nat → α
  | 0 => x 0
  | k + 1 => op (foldRanks op x k) (x (k + 1))

section

variable {α : Type} {op : α → α → α}

theorem foldRanks_congr {x y : Nat → α} {k : Nat} (h : ∀ i ≤ k, x i = y i) : foldRanks op x k = foldRanks op y k := by
  induction k with
  | zero => exact h 0 le_rfl
  | succ k ih => rw [foldRanks, foldRanks, ih fun i hi => h i (by omega), h (k + 1) le_rfl]

theorem foldRanks_succ' (ha : Std.Associative op) (x : Nat → α) (k : Nat) :
    foldRanks op x (k + 1) = op (x 0) (foldRanks op (fun i => x (i + 1)) k) := by
  induction k with
  | zero => rfl
  | succ k ih => rw [foldRanks, ih, ha.assoc, foldRanks]

theorem foldRanks_shift (ha : Std.Associative op) (hc : Std.Commutative op) {x : Nat → α} {k : Nat}
    (hx : x (k + 1) = x 0) : foldRanks op (fun i => x (i + 1)) k = foldRanks op x k := by
  cases k with
  | zero => exact hx
  | succ k =>
    calc foldRanks op (fun i => x (i + 1)) (k + 1) = op (foldRanks op (fun i => x (i + 1)) k) (x 0) := by
          rw [← hx]
          rfl
      _ = op (x 0) (foldRanks op (fun i => x (i + 1)) k) := hc.comm _ _
      _ = foldRanks op x (k + 1) := (foldRanks_succ' ha x k).symm

theorem foldRanks_rotate (ha : Std.Associative op) (hc : Std.Commutative op) (x : Nat → α) {n : Nat} (hn : 0 < n)
    (c : Nat) : foldRanks op (fun i => x ((c + i) % n)) (n - 1) = foldRanks op x (n - 1) := by
  induction c with
  | zero =>
    refine foldRanks_congr fun i hi => ?_
    rw [zero_add, Nat.mod_eq_of_lt (by omega)]
  | succ c ih =>
    have hshift := foldRanks_shift ha hc (x := fun i => x ((c + i) % n)) (k := n - 1)
      (by rw [show c + (n - 1 + 1) = c + n by omega, Nat.add_mod_right, add_zero])
    rw [← ih, ← hshift]
    refine foldRanks_congr fun i _ => ?_
    rw [show c + 1 + i = c + (i + 1) by omega]

end

variable {c s j : Nat}

namespace AllReduce

variable {α : Type} (A : AllReduce α)

def OutOfPlace : Prop := ∀ r < A.nranks, A.sendbuff r + A.count ≤ A.recvbuff r ∨ A.recvbuff r + A.count ≤ A.sendbuff r

def InPlace : Prop := ∀ r < A.nranks, A.sendbuff r = A.recvbuff r

def Ends (w : World α) : Prop := A.RunRel (World.start A.init) w ∧ Complete A.nranks A.dag w

/-- Every complete run leaves the reduction over all ranks in every `recvbuff`. -/
def Reduces : Prop := ∀ w, A.Ends w → ∀ r < A.nranks, ∀ e < A.count,
  w.mem r (A.recvbuff r + e) = foldRanks A.op (fun q => A.init q (A.sendbuff q + e)) (A.nranks - 1)

variable {A}

theorem ends_start_of_no_slices (h : A.numSlices = 0) : A.Ends (World.start A.init) := by
  refine ⟨.refl, fun r _ u hu => ?_⟩
  have hlen : (A.dag r).length = 0 := by
    rw [(A.wired r).length_eq, Dag.Pipeline.slots_length]
    show A.numSlices * _ = 0
    rw [h, zero_mul]
  omega

theorem exists_ends (A : AllReduce α) : ∃ w, A.Ends w := by
  obtain ⟨w, hrun, hcomplete⟩ := exists_complete (A := A) .refl
  exact ⟨w, hrun, hcomplete⟩

theorem acc_of_not_lt (h : ¬ j < triggerCount (A.cnt c s)) (k : Nat) : A.acc c s j k = A.acc c s j 0 := by
  induction k with
  | zero => rfl
  | succ k ih => exact (if_neg h).trans ih

theorem acc_outOfPlace (hout : A.OutOfPlace) (hc : c < A.nranks) (hs : s < A.numSlices) (hj : j < A.cnt c s)
    (htrigger : j < triggerCount (A.cnt c s)) (k : Nat) : A.acc c s j k =
      foldRanks A.op (fun i => A.init ((c + i) % A.nranks) (A.sendbuff ((c + i) % A.nranks) + (A.off c s + j))) k := by
  have hpos := off_add_lt hc hs hj
  induction k with
  | zero => rw [foldRanks, acc, add_zero, Nat.mod_eq_of_lt hc]
  | succ k ih =>
    have hne : A.sendbuff ((c + (k + 1)) % A.nranks) ≠ A.recvbuff ((c + (k + 1)) % A.nranks) := by
      have := hout _ (Nat.mod_lt (c + (k + 1)) (show 0 < A.nranks by omega))
      omega
    rw [acc, if_pos htrigger, if_neg hne, ih, foldRanks]

theorem acc_inPlace (hin : A.InPlace) (htrigger : j < triggerCount (A.cnt c s)) (k : Nat) :
    A.acc c s j (k + 1) = A.op (A.acc c s j k) (A.acc c s j k) := by
  have hn := A.two_le
  rw [acc, if_pos htrigger, if_pos (hin _ (Nat.mod_lt _ (by omega)))]

theorem Ends.value {w : World α} (h : A.Ends w) {r : Nat} (hr : r < A.nranks) (hc : c < A.nranks)
    (hs : s < A.numSlices) (hj : j < A.cnt c s) :
    w.mem r (A.recvbuff r + (A.off c s + j)) = A.acc c s j (A.nranks - 1) := final_value h.1 h.2 hr hc hs hj

/-! ## Out of place -/

theorem reduces_of_small (ha : Std.Associative A.op) (hcomm : Std.Commutative A.op) (hout : A.OutOfPlace)
    (hS : 0 < A.numSlices) (hsmall : ∀ c < A.nranks, ∀ s < A.numSlices, A.cnt c s < 2 ^ 32) : A.Reduces := by
  intro w hw r hr e he
  obtain ⟨c, hc, s, hs, j, hj, rfl⟩ := exists_elem hS he
  have htrigger : j < triggerCount (A.cnt c s) := by rwa [triggerCount, Nat.mod_eq_of_lt (hsmall c hc s hs)]
  rw [hw.value hr hc hs hj, acc_outOfPlace hout hc hs hj htrigger]
  exact foldRanks_rotate ha hcomm (fun q => A.init q (A.sendbuff q + (A.off c s + j))) (by have := A.two_le; omega) c

end AllReduce

/-- Rank memories with `send` in the first `count` cells of `sendbuff` (address 0) and zeros elsewhere; `recvbuff` is at
address `recv`. -/
def sumAllReduce (n count S recv : Nat) (send : Nat → Nat → Nat) (hn : 2 ≤ n) (hrecv : recv = 0 ∨ count ≤ recv) :
    AllReduce Nat where
  nranks := n
  numSlices := S
  count := count
  sendbuff _ := 0
  recvbuff _ := recv
  op := (· + ·)
  init r a := if a < count then send r a else 0
  two_le := hn
  placed r _ := by omega

theorem foldRanks_add_one (k : Nat) : foldRanks (· + ·) (fun _ => 1) k = k + 1 := by
  induction k with
  | zero => rfl
  | succ k ih => rw [foldRanks, ih]

/-- `A` and `B` run the same collective on the same data. -/
structure SameData {α : Type} (A B : AllReduce α) : Prop where
  nranks : B.nranks = A.nranks
  numSlices : B.numSlices = A.numSlices
  count : B.count = A.count
  op : B.op = A.op
  data : ∀ r < A.nranks, ∀ e < A.count, B.init r (B.sendbuff r + e) = A.init r (A.sendbuff r + e)

/-- Complete runs of `A` and `B` leave the same elements in `recvbuff` on every rank. -/
def SameResult {α : Type} (A B : AllReduce α) : Prop := ∀ w, A.Ends w → ∀ w', B.Ends w' → ∀ r < A.nranks, ∀ e < A.count,
  w.mem r (A.recvbuff r + e) = w'.mem r (B.recvbuff r + e)

theorem sameResult_of_no_reduction {α : Type} {A B : AllReduce α} (h : SameData A B) (hS : 0 < A.numSlices)
    (hnone : ∀ c < A.nranks, ∀ s < A.numSlices, A.cnt c s % 2 ^ 32 = 0) : SameResult A B := by
  intro w hw w' hw' r hr e he
  obtain ⟨c, hc, s, hs, j, hj, rfl⟩ := AllReduce.exists_elem hS he
  have hoff : B.off c s = A.off c s := by rw [AllReduce.off, AllReduce.off, h.count, h.nranks, h.numSlices]
  have hcnt : B.cnt c s = A.cnt c s := by rw [AllReduce.cnt, AllReduce.cnt, h.count, h.nranks, h.numSlices]
  have hzero : triggerCount (A.cnt c s) = 0 := hnone c hc s hs
  have hB := hw'.value (h.nranks ▸ hr) (h.nranks ▸ hc) (h.numSlices ▸ hs) (hcnt ▸ hj)
  rw [AllReduce.acc_of_not_lt (by rw [hcnt]; omega), hoff] at hB
  rw [hw.value hr hc hs hj, AllReduce.acc_of_not_lt (by omega), hB, AllReduce.acc, AllReduce.acc, hoff]
  exact (h.data c hc _ he).symm

section Sums

variable {n count S : Nat} (hn : 2 ≤ n)

variable {x : Nat → Nat → Nat}

theorem sum_inPlace_zero (hx : ∀ e, x c e = 0) (k : Nat) : (sumAllReduce n count S 0 x hn (.inl rfl)).acc c s j k = 0 := by
  induction k with
  | zero => simp [AllReduce.acc, sumAllReduce, hx]
  | succ k ih =>
    by_cases htrigger : j < triggerCount ((sumAllReduce n count S 0 x hn (.inl rfl)).cnt c s)
    · rw [AllReduce.acc_inPlace (fun _ _ => rfl) htrigger, ih]
      rfl
    · rw [AllReduce.acc_of_not_lt htrigger]
      simp [AllReduce.acc, sumAllReduce, hx]

theorem sum_outOfPlace_pos (hc : c < n) (hs : s < S) (hj : j < (sumAllReduce n count S count x hn (.inr le_rfl)).cnt c s)
    (htrigger : j < triggerCount ((sumAllReduce n count S count x hn (.inr le_rfl)).cnt c s))
    (hx : ∀ r ≠ c, ∀ e, 0 < x r e) : 0 < (sumAllReduce n count S count x hn (.inr le_rfl)).acc c s j (n - 1) := by
  have hlt : (sumAllReduce n count S count x hn (.inr le_rfl)).off c s + j < count := AllReduce.off_add_lt hc hs hj
  have hout : (sumAllReduce n count S count x hn (.inr le_rfl)).OutOfPlace := fun _ _ => .inl (zero_add count).le
  have hlast : (c + (n - 1)) % n ≠ c := by
    rw [AllReduce.mod_of_lt_three (by omega)]
    split_ifs <;> omega
  rw [AllReduce.acc_outOfPlace hout hc hs hj htrigger]
  obtain ⟨m, hm⟩ : ∃ m, n - 1 = m + 1 := ⟨n - 2, by omega⟩
  rw [hm] at hlast ⊢
  refine Nat.add_pos_right _ ?_
  show 0 < if 0 + _ < count then x ((c + (m + 1)) % n) _ else 0
  rw [zero_add, if_pos hlt]
  exact hx _ hlast _

end Sums

/-- **Running in place gives the out-of-place result exactly** when there is nothing to reduce, or at least one slice
and every slice count is a multiple of `2 ^ 32`, so that no trigger reduces anything. -/
theorem inPlace_same_iff (n count S : Nat) (hn : 2 ≤ n) :
    (∀ (α : Type) (A B : AllReduce α), A.nranks = n → A.count = count → A.numSlices = S → SameData A B → A.InPlace →
      B.OutOfPlace → SameResult A B) ↔
    count = 0 ∨ 0 < S ∧ ∀ c < n, ∀ s < S, partCount (partCount count n c) S s % 2 ^ 32 = 0 := by
  constructor
  · intro h
    rcases eq_zero_or_pos count with h0 | hcount
    · exact .inl h0
    right
    -- in place and out of place on the same numbers
    have hsame : ∀ x : Nat → Nat → Nat, SameResult (sumAllReduce n count S 0 x hn (.inl rfl))
        (sumAllReduce n count S count x hn (.inr le_rfl)) := fun x =>
      h Nat _ _ rfl rfl rfl ⟨rfl, rfl, rfl, rfl, fun _ _ _ _ => rfl⟩ (fun _ _ => rfl)
        fun _ _ => .inl (by simp [sumAllReduce])
    have hS : 0 < S := by
      by_contra hS
      have hval := hsame (fun _ _ => 1) _ (AllReduce.ends_start_of_no_slices (show S = 0 by omega)) _
        (AllReduce.ends_start_of_no_slices (show S = 0 by omega)) 0 (show 0 < n by omega) 0 hcount
      simp [sumAllReduce, World.start, hcount] at hval
    refine ⟨hS, fun c hc s hs => ?_⟩
    by_contra hne
    -- all ranks but the chunk's own contribute one
    have htrigger : 0 < triggerCount (partCount (partCount count n c) S s) := pos_of_ne_zero hne
    have hj : 0 < partCount (partCount count n c) S s := htrigger.trans_le (triggerCount_le_self _)
    set x : Nat → Nat → Nat := fun r _ => if r = c then 0 else 1 with hx
    obtain ⟨w, hw⟩ := (sumAllReduce n count S 0 x hn (.inl rfl)).exists_ends
    obtain ⟨w', hw'⟩ := (sumAllReduce n count S count x hn (.inr le_rfl)).exists_ends
    have h0 : 0 < n := by omega
    have hzero := (hw.value h0 hc hs hj).trans (sum_inPlace_zero hn (by simp [hx]) (n - 1))
    have hpos := sum_outOfPlace_pos hn hc hs hj htrigger (x := x) fun r hr e => by simp [hx, hr]
    have hval := hsame x w hw w' hw' 0 h0 _ (AllReduce.off_add_lt hc hs hj)
    rw [hzero] at hval
    exact absurd (hval.trans (hw'.value h0 hc hs hj)) hpos.ne
  · rintro h α A B rfl rfl rfl hdata - -
    rcases h with h0 | ⟨hS, hnone⟩
    · intro w _ w' _ r _ e he
      omega
    · exact sameResult_of_no_reduction hdata hS hnone

theorem inPlace_same_unreduced : SameResult (sumAllReduce 2 (2 ^ 33) 1 0 (fun r e => r + e) (by decide) (by decide))
      (sumAllReduce 2 (2 ^ 33) 1 (2 ^ 33) (fun r e => r + e) (by decide) (by decide)) :=
  (inPlace_same_iff 2 (2 ^ 33) 1 (by decide)).2 (.inr (by decide)) Nat _ _ rfl rfl rfl
    ⟨rfl, rfl, rfl, rfl, fun _ _ _ _ => rfl⟩ (fun _ _ => rfl) fun _ _ => .inl (zero_add (2 ^ 33)).le

/-- Two ranks holding 1 and 2, one element, one slice: the sum is 3 out of place and 2 in place. -/
theorem inPlace_sum_differs :
    ∃ w w', (sumAllReduce 2 1 1 0 (fun r _ => r + 1) (by decide) (by decide)).Ends w ∧
      (sumAllReduce 2 1 1 1 (fun r _ => r + 1) (by decide) (by decide)).Ends w' ∧ w.mem 0 0 = 2 ∧ w'.mem 0 1 = 3 ∧
      ¬ SameResult (sumAllReduce 2 1 1 0 (fun r _ => r + 1) (by decide) (by decide))
        (sumAllReduce 2 1 1 1 (fun r _ => r + 1) (by decide) (by decide)) := by
  obtain ⟨w, hw⟩ := (sumAllReduce 2 1 1 0 (fun r _ => r + 1) (by decide) (by decide)).exists_ends
  obtain ⟨w', hw'⟩ := (sumAllReduce 2 1 1 1 (fun r _ => r + 1) (by decide) (by decide)).exists_ends
  have h₁ : w.mem 0 0 = 2 := hw.value (r := 0) (c := 0) (s := 0) (j := 0) (by decide) (by decide) (by decide) (by decide)
  have h₂ : w'.mem 0 1 = 3 := hw'.value (r := 0) (c := 0) (s := 0) (j := 0) (by decide) (by decide) (by decide) (by decide)
  refine ⟨w, w', hw, hw', h₁, h₂, fun hsame => ?_⟩
  have : w.mem 0 0 = w'.mem 0 1 := hsame w hw w' hw' 0 (by decide) 0 (by decide)
  omega

end FlagCX.UniRunner
