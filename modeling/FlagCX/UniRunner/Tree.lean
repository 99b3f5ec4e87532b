import FlagCX.UniRunner.RingResult

/-!
# The tree of the Reduce

`initUniRunnerStateTreeRed` counts ranks from the root on (`algoRank`). Rank `a` receives at step `i` from rank `a + 2 ^ i` and
sends to rank `a - 2 ^ ctz a`; how often it receives is computed in another way than where it sends.

* `lt_recvNodesPerSlice_iff` : the steps at which a rank receives.
* `child_iff_parent`         : receivers and senders agree.
* `collect`                  : the value of a rank after the first steps; at the root, the reduction over all ranks.
-/

namespace FlagCX.UniRunner

/-! ## Counts of receives -/

theorem pow_dvd_iff_le_ctz {x k : Nat} (hx : 0 < x) : 2 ^ k ∣ x ↔ k ≤ ctz x := by
  constructor
  · intro h
    have hk : k < x := lt_of_lt_of_le Nat.lt_two_pow_self (Nat.le_of_dvd hx h)
    exact Nat.le_findGreatest hk.le h
  · intro h
    have hspec : 2 ^ ctz x ∣ x := Nat.findGreatest_spec (P := fun k => 2 ^ k ∣ x) (Nat.zero_le x) (by simp)
    exact (Nat.pow_dvd_pow 2 h).trans hspec

theorem ctz_add_pow {a i : Nat} (h : 2 ^ (i + 1) ∣ a) : ctz (a + 2 ^ i) = i := by
  have hpos : 0 < 2 ^ i := Nat.two_pow_pos i
  have hi : 2 ^ i ∣ a + 2 ^ i := Nat.dvd_add ((Nat.pow_dvd_pow 2 (Nat.le_succ i)).trans h) (Nat.dvd_refl _)
  apply le_antisymm
  · by_contra hlt
    have hdvd : 2 ^ (i + 1) ∣ 2 ^ i := (Nat.dvd_add_right h).1 ((pow_dvd_iff_le_ctz (by omega)).2 (by omega))
    have := Nat.le_of_dvd hpos hdvd
    omega
  · exact (pow_dvd_iff_le_ctz (by omega)).1 hi

theorem pow_dvd_sub_pow {x : Nat} (hx : 0 < x) : 2 ^ (ctz x + 1) ∣ x - 2 ^ ctz x := by
  obtain ⟨q, hq⟩ := (pow_dvd_iff_le_ctz hx).2 (le_refl (ctz x))
  have hodd : q % 2 = 1 := by
    by_contra heven
    have hno : ¬ 2 ^ (ctz x + 1) ∣ x := fun h => by
      have := (pow_dvd_iff_le_ctz hx).1 h
      omega
    apply hno
    refine ⟨q / 2, ?_⟩
    calc x = 2 ^ ctz x * q := hq
      _ = 2 ^ ctz x * (2 * (q / 2)) := by rw [show 2 * (q / 2) = q by omega]
      _ = 2 ^ (ctz x + 1) * (q / 2) := by rw [pow_succ, mul_assoc]
  refine ⟨q / 2, ?_⟩
  calc x - 2 ^ ctz x = 2 ^ ctz x * (q - 1) := by rw [Nat.mul_sub, ← hq, mul_one]
    _ = 2 ^ ctz x * (2 * (q / 2)) := by rw [show 2 * (q / 2) = q - 1 by omega]
    _ = 2 ^ (ctz x + 1) * (q / 2) := by rw [pow_succ, mul_assoc]

section

variable {comm : Comm} {root i : Nat}

theorem algoRank_lt (hn : 2 ≤ comm.nranks) : algoRank comm root < comm.nranks := Nat.mod_lt _ (by omega)

/-- **The steps at which a rank receives**: the bits below its lowest one, as long as there is a rank to receive from. -/
theorem lt_recvNodesPerSlice_iff (hn : 2 ≤ comm.nranks) :
    i < recvNodesPerSlice comm root ↔ 2 ^ (i + 1) ∣ algoRank comm root ∧ algoRank comm root + 2 ^ i < comm.nranks := by
  have hlt : algoRank comm root < comm.nranks := algoRank_lt hn
  by_cases hr : algoRank comm root = 0
  · rw [recvNodesPerSlice_root comm hr, nTotalSteps, bitLength, Nat.lt_size, hr]
    have : 2 ^ i ≤ comm.nranks - 1 ↔ 0 + 2 ^ i < comm.nranks := by omega
    simpa using this
  · have hpos : 0 < algoRank comm root := pos_of_ne_zero hr
    unfold recvNodesPerSlice
    simp only [hr, ne_eq, not_false_iff, if_true, true_and]
    rw [pow_dvd_iff_le_ctz hpos]
    have hpow : ∀ {j k : Nat}, j ≤ k → 2 ^ j ≤ 2 ^ k := fun h => Nat.pow_le_pow_right (by omega) h
    split_ifs with h₁ h₂
    · have : 0 < 2 ^ i := Nat.two_pow_pos i
      omega
    · -- the last subtree is cut by the number of ranks
      rw [bitLength, Nat.lt_size]
      have hiff : 2 ^ i ≤ comm.nranks - algoRank comm root - 1 ↔ algoRank comm root + 2 ^ i < comm.nranks := by omega
      rw [hiff]
      refine ⟨fun h => ⟨?_, h⟩, fun h => h.2⟩
      by_contra hge
      have := hpow (show ctz (algoRank comm root) - 1 ≤ i by omega)
      omega
    · refine ⟨fun h => ⟨h, ?_⟩, fun h => h.1⟩
      have := hpow (show i ≤ ctz (algoRank comm root) - 1 by omega)
      omega

end

/-! ## Children and parents -/

/-- Rank `a` receives at step `i`, among `n` ranks counted from the root. -/
def HasChild (n a i : Nat) : Prop := 2 ^ (i + 1) ∣ a ∧ a + 2 ^ i < n

instance (n a i : Nat) : Decidable (HasChild n a i) := inferInstanceAs (Decidable (_ ∧ _))

/-- **Receivers and senders agree**: `a` receives from `b` at step `i` exactly when `b` sends to `a`, at its lowest bit. -/
theorem child_iff_parent {n a b i : Nat} (hb : b < n) :
    HasChild n a i ∧ a + 2 ^ i = b ↔ b ≠ 0 ∧ a = b - 2 ^ ctz b ∧ i = ctz b := by
  constructor
  · rintro ⟨⟨hdvd, -⟩, rfl⟩
    rw [ctz_add_pow hdvd]
    omega
  · rintro ⟨hb0, rfl, rfl⟩
    have hle := ctz_pow_le (pos_of_ne_zero hb0)
    exact ⟨⟨pow_dvd_sub_pow (pos_of_ne_zero hb0), by omega⟩, by omega⟩

theorem not_hasChild_child {n a i j : Nat} (h : HasChild n a i) (hj : i ≤ j) : ¬ HasChild n (a + 2 ^ i) j := by
  have hpos : 0 < 2 ^ i := Nat.two_pow_pos i
  rintro ⟨hdvd, -⟩
  have := (pow_dvd_iff_le_ctz (by omega)).1 hdvd
  rw [ctz_add_pow h.1] at this
  omega

/-! ## Values -/

section

variable {α : Type} {op : α → α → α}

theorem foldRanks_append (ha : Std.Associative op) (x : Nat → α) (j k : Nat) :
    foldRanks op x (j + 1 + k) = op (foldRanks op x j) (foldRanks op (fun q => x (j + 1 + q)) k) := by
  induction k with
  | zero => rfl
  | succ k ih =>
    rw [← add_assoc, foldRanks, ih, ha.assoc]
    rfl

/-- What rank `a` holds after the first `i` steps, if every reduction takes place. -/
def collect (op : α → α → α) (x : Nat → α) (n : Nat) : Nat → Nat → α
  | 0, a => x a
  | i + 1, a => if HasChild n a i then op (collect op x n i (a + 2 ^ i)) (collect op x n i a) else collect op x n i a

section

variable (ha : Std.Associative op) (hc : Std.Commutative op) (x : Nat → α)
include ha hc x

/-- **A rank collects the contributions from its own on**, every one once. -/
theorem collect_eq {n : Nat} (i : Nat) :
    ∀ a, a < n → 2 ^ i ∣ a → collect op x n i a = foldRanks op (fun q => x (a + q)) (min (2 ^ i) (n - a) - 1) := by
  induction i with
  | zero =>
    intro a hlt _
    rw [show min (2 ^ 0) (n - a) - 1 = 0 by omega]
    rfl
  | succ i ih =>
    intro a hlt hdvd
    have hdvd' : 2 ^ i ∣ a := (Nat.pow_dvd_pow 2 (Nat.le_succ i)).trans hdvd
    rw [collect]
    split_ifs with hchild
    · have hlt' := hchild.2
      rw [ih a hlt hdvd', ih (a + 2 ^ i) hlt' (Nat.dvd_add hdvd' (Nat.dvd_refl _)), hc.comm,
        show min (2 ^ (i + 1)) (n - a) - 1 = min (2 ^ i) (n - a) - 1 + 1 + (min (2 ^ i) (n - (a + 2 ^ i)) - 1) by omega,
        foldRanks_append ha]
      congr 2
      funext q
      congr 1
      omega
    · have hge : n ≤ a + 2 ^ i := Nat.le_of_not_lt fun h => hchild ⟨hdvd, h⟩
      rw [ih a hlt hdvd']
      congr 1
      omega

/-- **The root collects the contributions of all ranks.** -/
theorem collect_root {n L : Nat} (hn : 0 < n) (hL : n ≤ 2 ^ L) : collect op x n L 0 = foldRanks op x (n - 1) := by
  rw [collect_eq ha hc x L 0 hn (Nat.dvd_zero _), show min (2 ^ L) (n - 0) - 1 = n - 1 by omega]
  refine foldRanks_congr fun q _ => ?_
  rw [zero_add]

end

end

end FlagCX.UniRunner
