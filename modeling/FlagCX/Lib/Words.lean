import Mathlib.Data.Nat.Bitwise

/-!
# Fields of machine words and wrapping counters

* `or_shiftLeft` : a word packed as `low ||| high <<< w` as a number.
* `wrapLess`     : the comparison of counters modulo `M`, true when the first lies in the half space behind
  the second; on counters less than half a turn apart it is the order of the numbers counted.
* `ahead`        : the distance from a counter to the next number with a given residue.
-/

namespace FlagCX.Lib

/-! ## Fields -/

variable {a : Nat}

theorem or_shiftLeft {w : Nat} (h : a < 2 ^ w) (b : Nat) : a ||| b <<< w = b * 2 ^ w + a := by
  rw [Nat.or_comm, ← Nat.shiftLeft_add_eq_or_of_lt h, Nat.shiftLeft_eq]

variable {b : Nat}

theorem or_shiftLeft_lt {w v : Nat} (ha : a < 2 ^ w) (hb : b < 2 ^ v) : a ||| b <<< w < 2 ^ (w + v) := by
  rw [or_shiftLeft ha, pow_add]
  calc b * 2 ^ w + a < b * 2 ^ w + 2 ^ w := by omega
    _ = (b + 1) * 2 ^ w := by rw [add_mul, one_mul]
    _ ≤ 2 ^ v * 2 ^ w := Nat.mul_le_mul_right _ hb
    _ = 2 ^ w * 2 ^ v := mul_comm _ _

/-! ## Wrapping counters -/

/-- `a` lies in the half turn behind `b`. -/
def wrapLess (M a b : Nat) : Bool := decide (M / 2 ≤ (a + (M - b % M)) % M)

variable {M : Nat}

theorem wrapDiff_of_le (hM : 0 < M) (h : b ≤ a) (h' : a < b + M) : (a % M + (M - b % M % M)) % M = a - b := by
  have hb := Nat.mod_lt b hM
  have e : a + (M - b % M) = M * (b / M + 1) + (a - b) := by
    have := Nat.div_add_mod b M
    rw [mul_add, mul_one]
    omega
  rw [Nat.mod_mod, Nat.mod_add_mod, e, Nat.mul_add_mod, Nat.mod_eq_of_lt (by omega)]

theorem wrapLess_of_le (h : b ≤ a) (h' : a < b + M / 2) : wrapLess M (a % M) (b % M) = false := by
  rw [wrapLess, wrapDiff_of_le (by omega) h (by omega), decide_eq_false_iff_not]
  omega

theorem wrapLess_of_lt (h : a < b) (h' : b ≤ a + M / 2) : wrapLess M (a % M) (b % M) = true := by
  have e : (a % M + (M - b % M % M)) % M = a + M - b := by
    have := wrapDiff_of_le (M := M) (a := a + M) (b := b) (by omega) (by omega) (by omega)
    rwa [Nat.add_mod_right] at this
  rw [wrapLess, e, decide_eq_true_iff]
  omega

theorem wrap_inj (h : a < b + M / 2) (h' : b < a + M / 2) (e : a % M = b % M) : a = b := by
  rcases le_total a b with hab | hab
  · have := wrapDiff_of_le (M := M) (by omega) hab (by omega)
    rw [← e, Nat.mod_mod, Nat.add_sub_of_le (Nat.mod_lt a (by omega)).le, Nat.mod_self] at this
    omega
  · have := wrapDiff_of_le (M := M) (by omega) hab (by omega)
    rw [e, Nat.mod_mod, Nat.add_sub_of_le (Nat.mod_lt b (by omega)).le, Nat.mod_self] at this
    omega

/-- How far the residue `a` lies ahead of the counter `x`. -/
def ahead (M x a : Nat) : Nat := (a + M - x % M) % M

variable {x : Nat}

theorem ahead_eq (ha : a < M) : ahead M x a = if x % M ≤ a then a - x % M else a + M - x % M := by
  unfold ahead
  split_ifs with h
  · rw [Nat.sub_add_comm h, Nat.add_mod_right, Nat.mod_eq_of_lt (by omega)]
  · rw [Nat.mod_eq_of_lt (by omega)]

theorem ahead_succ (ha : a < M) : ahead M (x + 1) a = if ahead M x a = 0 then M - 1 else ahead M x a - 1 := by
  have hM : 0 < M := Nat.lt_of_le_of_lt (Nat.zero_le a) ha
  have hx := Nat.mod_lt x hM
  have hsucc : (x + 1) % M = if x % M + 1 = M then 0 else x % M + 1 := by
    rw [← Nat.mod_add_mod]
    split_ifs with h
    · rw [h, Nat.mod_self]
    · rw [Nat.mod_eq_of_lt (by omega)]
  rw [ahead_eq ha, ahead_eq ha, hsucc]
  split_ifs <;> omega

theorem ahead_add (ha : a < M) {j : Nat} (hj : j ≤ ahead M x a) : ahead M (x + j) a = ahead M x a - j := by
  induction j with
  | zero => rfl
  | succ j ih =>
    have ihj := ih (by omega)
    rw [← add_assoc, ahead_succ ha, ihj, if_neg (by omega), Nat.sub_sub]

theorem ahead_of_le {y : Nat} (hM : 0 < M) (h : x ≤ y) (h' : y < x + M) : ahead M x (y % M) = y - x := by
  have hx := Nat.mod_lt x hM
  have hd := wrapDiff_of_le hM h h'
  rw [Nat.mod_mod] at hd
  rw [← hd, ahead, Nat.add_sub_assoc hx.le]

theorem ahead_passed (ha : a < M) : ahead M (x + ahead M x a + 1) a = M - 1 := by
  rw [ahead_succ ha, ahead_add ha le_rfl, Nat.sub_self, if_pos rfl]

end FlagCX.Lib
