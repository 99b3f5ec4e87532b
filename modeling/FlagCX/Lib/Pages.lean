import Mathlib.Tactic.Ring
import Mathlib.Data.Nat.Bitwise

/-!
# Page ranges

* `pageOf`            : the page of an address, by masking the low bits of a 64-bit word; `pageOf_eq`.
* `pageUp`            : the end of the last page of a range.
* `pages`             : the pages of a range, in the order a loop visits them; `mem_pages`.
* `updateAll`         : a map after the same value was stored for all keys of a list; `updateAll_apply`.
-/

namespace FlagCX.Lib
open Function List

/-! ## Masks -/

/-- `addr & -pageSize` on 64-bit words. -/
def pageOf (pageSize addr : Nat) : Nat := addr &&& (2 ^ 64 - pageSize)

/-- `(addr + pageSize - 1) & -pageSize` on 64-bit words. -/
def pageUp (pageSize addr : Nat) : Nat := pageOf pageSize ((addr + pageSize - 1) % 2 ^ 64)

section
variable {bits : Nat} (hbits : bits < 64) {addr : Nat}
include hbits

theorem testBit_mask (i : Nat) : (2 ^ 64 - 2 ^ bits).testBit i = (decide (i < 64) && decide (bits ≤ i)) := by
  have hlt : 2 ^ bits - 1 < 2 ^ 64 := by
    have := Nat.pow_lt_pow_right (a := 2) (by decide) hbits
    omega
  have hsub : 2 ^ 64 - 2 ^ bits = 2 ^ 64 - (2 ^ bits - 1 + 1) := by rw [Nat.sub_add_cancel (Nat.two_pow_pos bits)]
  rw [hsub, Nat.testBit_two_pow_sub_succ hlt, Nat.testBit_two_pow_sub_one]
  by_cases h : i < bits
  · simp [h]
  · simp [h, not_lt.1 h]

section

variable (haddr : addr < 2 ^ 64)
include haddr

/-- The mask takes the low bits away. -/
theorem pageOf_eq : pageOf (2 ^ bits) addr = addr / 2 ^ bits * 2 ^ bits := by
  apply Nat.eq_of_testBit_eq
  intro i
  rw [pageOf, Nat.testBit_and, testBit_mask hbits, ← Nat.shiftRight_eq_div_pow, ← Nat.shiftLeft_eq, Nat.testBit_shiftLeft,
    Nat.testBit_shiftRight]
  by_cases h : bits ≤ i
  · rw [Nat.add_sub_cancel' h]
    by_cases hi : i < 64
    · simp [h, hi]
    · have : addr.testBit i = false := Nat.testBit_lt_two_pow (haddr.trans_le (Nat.pow_le_pow_right (by decide) (by omega)))
      simp [this]
  · simp [h]

theorem pageOf_le : pageOf (2 ^ bits) addr ≤ addr := by
  rw [pageOf_eq hbits haddr]
  exact Nat.div_mul_le_self _ _

theorem lt_pageOf_add : addr < pageOf (2 ^ bits) addr + 2 ^ bits := by
  rw [pageOf_eq hbits haddr]
  exact Nat.lt_div_mul_add (Nat.two_pow_pos bits)

theorem dvd_pageOf : 2 ^ bits ∣ pageOf (2 ^ bits) addr := by
  rw [pageOf_eq hbits haddr]
  exact dvd_mul_left _ _

end

theorem dvd_pageUp : 2 ^ bits ∣ pageUp (2 ^ bits) addr := dvd_pageOf hbits (Nat.mod_lt _ (by decide))

theorem le_pageUp (haddr : addr + 2 ^ bits - 1 < 2 ^ 64) : addr ≤ pageUp (2 ^ bits) addr := by
  have hlt := lt_pageOf_add hbits haddr
  rw [pageUp, Nat.mod_eq_of_lt haddr]
  omega

theorem pageOf_mem {begin' end' : Nat} (hbegin : 2 ^ bits ∣ begin') (haddr : addr < 2 ^ 64) (hle : begin' ≤ addr) (hlt : addr < end') :
    begin' ≤ pageOf (2 ^ bits) addr ∧ pageOf (2 ^ bits) addr < end' := by
  refine ⟨?_, (pageOf_le hbits haddr).trans_lt hlt⟩
  obtain ⟨k, rfl⟩ := hbegin
  rw [pageOf_eq hbits haddr, mul_comm]
  exact Nat.mul_le_mul_right _ ((Nat.le_div_iff_mul_le (Nat.two_pow_pos bits)).2 (by rwa [mul_comm]))

end

/-! ## The pages of a range -/

def pages (pageSize beginAddr endAddr : Nat) : List Nat :=
  (List.range ((endAddr - beginAddr + pageSize - 1) / pageSize)).map fun k => beginAddr + k * pageSize

theorem mem_pages {pageSize beginAddr endAddr addr : Nat} (hsize : 0 < pageSize) (hbegin : pageSize ∣ beginAddr) :
    addr ∈ pages pageSize beginAddr endAddr ↔ pageSize ∣ addr ∧ beginAddr ≤ addr ∧ addr < endAddr := by
  obtain ⟨m, rfl⟩ := hbegin
  simp only [pages, mem_map, mem_range]
  constructor
  · rintro ⟨k, hk, rfl⟩
    have hlt : (k + 1) * pageSize ≤ endAddr - pageSize * m + pageSize - 1 := (Nat.le_div_iff_mul_le hsize).1 hk
    rw [add_mul, one_mul] at hlt
    exact ⟨⟨m + k, by ring⟩, Nat.le_add_right _ _, by omega⟩
  · rintro ⟨⟨n, rfl⟩, hle, hlt⟩
    have hmn : m ≤ n := Nat.le_of_mul_le_mul_left hle hsize
    obtain ⟨k, rfl⟩ := Nat.exists_eq_add_of_le hmn
    refine ⟨k, (Nat.le_div_iff_mul_le hsize).2 ?_, by ring⟩
    have : pageSize * (m + k) = pageSize * m + k * pageSize := by ring
    rw [Nat.succ_mul]
    omega

theorem shared_page {pageSize b e b' e' : Nat} (hsize : 0 < pageSize) (hb : pageSize ∣ b) (hb' : pageSize ∣ b') (he : b < e)
    (he' : b' < e') (h : b < e') (h' : b' < e) : ∃ page ∈ pages pageSize b e, page ∈ pages pageSize b' e' := by
  rcases le_total b b' with hle | hle
  · exact ⟨b', (mem_pages hsize hb).2 ⟨hb', hle, h'⟩, (mem_pages hsize hb').2 ⟨hb', le_rfl, he'⟩⟩
  · exact ⟨b, (mem_pages hsize hb).2 ⟨hb, le_rfl, he⟩, (mem_pages hsize hb').2 ⟨hb, hle, h⟩⟩

/-! ## Storing one value for many keys -/

/-- The map after `value` was stored for each key. -/
def updateAll {κ β : Type} [DecidableEq κ] (map : κ → β) (keys : List κ) (value : β) : κ → β :=
  keys.foldl (fun map key => update map key value) map

theorem updateAll_apply {κ β : Type} [DecidableEq κ] (map : κ → β) (keys : List κ) (value : β) (key : κ) :
    updateAll map keys value key = if key ∈ keys then value else map key := by
  rw [updateAll]
  induction keys generalizing map with
  | nil => rfl
  | cons k keys ih =>
    rw [foldl_cons, ih]
    by_cases hmem : key ∈ keys
    · rw [if_pos hmem, if_pos (mem_cons_of_mem _ hmem)]
    · rw [if_neg hmem]
      by_cases heq : key = k
      · rw [heq, update_self, if_pos mem_cons_self]
      · rw [update_of_ne heq, if_neg (by simp [heq, hmem])]

end FlagCX.Lib
