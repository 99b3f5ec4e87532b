import Mathlib.Data.Nat.Bitwise

/-!
# Bit fields of a word

A `Field` is a range of bits. `place` shifts a value to it and `read` takes it out again; words are put together from
placed values by `|||`.

* `read_or`          : the fields of a combined word are combined.
* `read_place_self`  : a value that fits is read back.
* `read_place_apart` : it is not part of a field apart from its own.
* `read_fits`        : only values that fit are ever read.
-/

namespace FlagCX.Lib

/-- The bits from `off` to `off + bits`. -/
structure Field where
  off : Nat
  bits : Nat
  deriving DecidableEq, Repr

namespace Field

def mask (n bits : Nat) : BitVec n := BitVec.ofNat n (2 ^ bits - 1)

variable {n : Nat} (f g : Field) (v w : BitVec n)

def read : BitVec n := (w >>> f.off) &&& mask n f.bits

/-- The word with a value shifted to the field, as wide as the value is. -/
def place : BitVec n := v <<< f.off

/-- The value is no wider than the field. -/
def Fits : Prop := v.toNat < 2 ^ f.bits

instance : Decidable (f.Fits v) := inferInstanceAs (Decidable (_ < _))

def Apart : Prop := f.off + f.bits ≤ g.off ∨ g.off + g.bits ≤ f.off

instance : Decidable (f.Apart g) := inferInstanceAs (Decidable (_ ∨ _))

variable {f g v w}

theorem getLsbD_mask (bits i : Nat) : (mask n bits).getLsbD i = (decide (i < n) && decide (i < bits)) := by
  rw [mask, BitVec.getLsbD_ofNat, Nat.testBit_two_pow_sub_one]

theorem getLsbD_read (i : Nat) : (f.read w).getLsbD i = (decide (i < f.bits) && w.getLsbD (f.off + i)) := by
  rw [read, BitVec.getLsbD_and, BitVec.getLsbD_ushiftRight, getLsbD_mask, Bool.and_comm]
  by_cases hi : i < n
  · simp [hi]
  · simp [hi, BitVec.getLsbD_of_ge w (f.off + i) (by omega)]

theorem getLsbD_place (i : Nat) : (f.place v).getLsbD i = (decide (i < n) && !decide (i < f.off) && v.getLsbD (i - f.off)) :=
  BitVec.getLsbD_shiftLeft v f.off

theorem Fits.getLsbD (h : f.Fits v) {i : Nat} (hi : f.bits ≤ i) : v.getLsbD i = false := by
  exact Nat.testBit_lt_two_pow (lt_of_lt_of_le h (Nat.pow_le_pow_right (by decide) hi))

theorem fits_iff : f.Fits v ↔ ∀ i, f.bits ≤ i → v.getLsbD i = false := by
  constructor
  · intro h i hi
    exact h.getLsbD hi
  · intro h
    apply Nat.lt_pow_two_of_testBit
    intro i hi
    exact h i hi

theorem Fits.or (hv : f.Fits v) (hw : f.Fits w) : f.Fits (v ||| w) := by
  rw [fits_iff] at *
  intro i hi
  rw [BitVec.getLsbD_or, hv i hi, hw i hi, Bool.or_self]

theorem Fits.place (hv : g.Fits v) (h : g.off + g.bits ≤ f.bits) : f.Fits (g.place v) := by
  rw [fits_iff] at *
  intro i hi
  rw [getLsbD_place, hv _ (by omega), Bool.and_false]

theorem read_above (hv : g.Fits v) (h : g.bits ≤ f.off) : f.read v = 0#n := by
  apply BitVec.eq_of_getLsbD_eq
  intro i _
  rw [getLsbD_read, hv.getLsbD (by omega), Bool.and_false, BitVec.getLsbD_zero]

theorem read_or : f.read (v ||| w) = f.read v ||| f.read w := by
  apply BitVec.eq_of_getLsbD_eq
  intro i _
  simp only [getLsbD_read, BitVec.getLsbD_or, Bool.and_or_distrib_left]

theorem read_place_self (h : f.Fits v) (hn : f.off + f.bits ≤ n) : f.read (f.place v) = v := by
  apply BitVec.eq_of_getLsbD_eq
  intro i _
  rw [getLsbD_read, getLsbD_place, Nat.add_sub_cancel_left]
  by_cases hi : i < f.bits
  · have hlt : f.off + i < n := by omega
    simp [hi, hlt]
  · simp [hi, h.getLsbD (Nat.le_of_not_lt hi)]

theorem read_place_apart (h : f.Apart g) (hv : g.Fits v) : f.read (g.place v) = 0#n := by
  apply BitVec.eq_of_getLsbD_eq
  intro i _
  rw [getLsbD_read, getLsbD_place, BitVec.getLsbD_zero]
  by_cases hi : i < f.bits
  · rcases h with h | h
    · have hlt : f.off + i < g.off := by omega
      simp [hlt]
    · have hge : g.bits ≤ f.off + i - g.off := by omega
      simp [hv.getLsbD hge]
  · simp [hi]

theorem read_fits : f.Fits (f.read w) := by
  apply lt_of_le_of_lt Nat.and_le_right
  apply lt_of_le_of_lt (Nat.mod_le _ _)
  exact Nat.sub_lt (Nat.two_pow_pos _) Nat.one_pos

theorem and_mask_fits : f.Fits (v &&& mask n f.bits) := by
  have h := read_fits (f := ⟨0, f.bits⟩) (w := v)
  rwa [read, BitVec.ushiftRight_zero] at h

theorem and_mask_of_fits (h : f.Fits v) : v &&& mask n f.bits = v := by
  apply BitVec.eq_of_getLsbD_eq
  intro i hi
  rw [BitVec.getLsbD_and, getLsbD_mask]
  by_cases hb : i < f.bits
  · simp [hi, hb]
  · simp [hb, h.getLsbD (Nat.le_of_not_lt hb)]

theorem read_and_not_place (h : f.Apart g) (hv : g.Fits v) : f.read (w &&& ~~~g.place v) = f.read w := by
  apply BitVec.eq_of_getLsbD_eq
  intro i hi
  have hbit := congrArg (·.getLsbD i) (read_place_apart h hv)
  simp only [getLsbD_read, BitVec.getLsbD_zero] at hbit
  rw [getLsbD_read, getLsbD_read, BitVec.getLsbD_and, BitVec.getLsbD_not]
  by_cases hw : w.getLsbD (f.off + i) = true
  · have hlt := BitVec.lt_of_getLsbD hw
    by_cases hb : i < f.bits <;> simp_all
  · simp_all

end Field

end FlagCX.Lib
