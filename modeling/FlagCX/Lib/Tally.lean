import Mathlib.Data.List.Nodup
import Mathlib.Data.Nat.Digits.Defs

/-!
# Counters that count their holders

A holder names the keys it holds, once for every hold. `tally` is how often a list of holders holds a key: the value a
reference counter must have.

* `tally_append`, `tally_eraseIdx` : holders come and go.
* `tally_pos`                      : a holder that names the key counts.
* `byte_ofDigits`                  : the bytes of a word packed from a list of keys.
-/

namespace FlagCX.Lib
open List

variable {α β : Type} [BEq α]

/-- How often the holders hold `a`. -/
def tally (keys : β → List α) (hs : List β) (a : α) : Nat := (hs.map fun b => (keys b).count a).sum

variable {keys : β → List α} {hs : List β} {a : α}

@[simp] theorem tally_nil : tally keys [] a = 0 := rfl

@[simp] theorem tally_cons (b : β) : tally keys (b :: hs) a = (keys b).count a + tally keys hs a := by
  rw [tally, map_cons, sum_cons, tally]

@[simp] theorem tally_append (hs' : List β) : tally keys (hs ++ hs') a = tally keys hs a + tally keys hs' a := by
  rw [tally, map_append, sum_append, tally, tally]

theorem tally_eraseIdx {i : Nat} {b : β} (h : hs[i]? = some b) :
    tally keys hs a = (keys b).count a + tally keys (hs.eraseIdx i) a := by
  induction hs generalizing i with
  | nil => simp at h
  | cons c hs ih =>
    cases i with
    | zero =>
      rw [getElem?_cons_zero, Option.some.injEq] at h
      subst h
      rw [eraseIdx_cons_zero, tally_cons]
    | succ i =>
      rw [eraseIdx_cons_succ, tally_cons, tally_cons, ih h]
      omega

theorem tally_pos [LawfulBEq α] {b : β} (hb : b ∈ hs) (ha : a ∈ keys b) : 0 < tally keys hs a := by
  obtain ⟨i, hi⟩ := mem_iff_getElem?.1 hb
  rw [tally_eraseIdx hi]
  have := count_pos_iff.2 ha
  omega

theorem tally_congr {hs' : List β} (h : hs.map keys = hs'.map keys) : tally keys hs a = tally keys hs' a := by
  have e : ∀ l : List β, tally keys l a = ((l.map keys).map (List.count a)).sum := by
    intro l
    rw [tally, map_map]
    rfl
  rw [e, e, h]

theorem tally_eq_countP [LawfulBEq α] (h : ∀ b ∈ hs, (keys b).Nodup) :
    tally keys hs a = hs.countP fun b => (keys b).elem a := by
  induction hs with
  | nil => rfl
  | cons b hs ih =>
    rw [tally_cons, countP_cons, ih fun c hc => h c (mem_cons_of_mem b hc), add_comm]
    congr 1
    by_cases ha : a ∈ keys b
    · rw [count_eq_one_of_mem (h b mem_cons_self) ha, if_pos (elem_eq_true_of_mem ha)]
    · rw [count_eq_zero.2 ha, if_neg (by simpa using ha)]

/-! ## Packed keys -/

theorem byte_ofDigits {bs : List Nat} (h : ∀ b ∈ bs, b < 256) (j : Nat) :
    Nat.ofDigits 256 bs / 256 ^ j % 256 = bs.getD j 0 := by
  induction bs generalizing j with
  | nil => simp
  | cons b bs ih =>
    have hb := h b mem_cons_self
    rw [Nat.ofDigits_cons]
    cases j with
    | zero =>
      rw [pow_zero, Nat.div_one, getD_cons_zero]
      omega
    | succ j =>
      rw [getD_cons_succ, ← ih fun c hc => h c (mem_cons_of_mem b hc)]
      rw [pow_succ', ← Nat.div_div_eq_div_mul]
      congr 2
      omega

end FlagCX.Lib
