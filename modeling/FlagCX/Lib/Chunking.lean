import Mathlib.Algebra.Group.Int.Defs
import Mathlib.Algebra.Group.Nat.Defs
import Mathlib.Tactic.Common

/-!
# Messages cut into chunks, computed through `int`

A message of `size` bytes is moved in chunks of `chunkSize`. A C++ program that keeps the number of chunks and the length of
a chunk in an `int`, and the running total in a `size_t`, computes `chunkSteps`, `stepSize` and `addSize`.

* `steps`, `offset`, `length` : the chunks the message has.
* `Chunking.Fits` : the number of chunks and the length of a chunk are representable as `int`. Then the program computes them
  (`Fits.chunkSteps`, `Fits.stepSize`, `Fits.total`).
-/

namespace FlagCX.Lib

/-! ## Machine words -/

/-- A 64-bit word converted to `int`. -/
def toInt (n : Nat) : Int := (n : Int).bmod (2 ^ 32)

/-- An `int` converted to `size_t`. -/
def toSize (i : Int) : Nat := (i % 2 ^ 64).toNat

theorem toInt_of_lt {n : Nat} (h : n < 2 ^ 31) : toInt n = n := by
  unfold toInt
  rw [Int.bmod_eq_of_le] <;> omega

theorem toInt_toNat_lt {n : Nat} (h : 2 ^ 31 ≤ n) : (toInt n).toNat < n := by
  unfold toInt
  rw [Int.bmod_def]
  split <;> omega

theorem toInt_toNat_le (n : Nat) : (toInt n).toNat ≤ n := by
  rcases Nat.lt_or_ge n (2 ^ 31) with h | h
  · exact Nat.le_of_eq (by rw [toInt_of_lt h, Int.toNat_natCast])
  · exact Nat.le_of_lt (toInt_toNat_lt h)

theorem toSize_ofNat {n : Nat} (h : n < 2 ^ 64) : toSize n = n := by
  unfold toSize
  omega

/-! ## Chunks -/

/-- The sizes of a message and of its chunks, as 64-bit values. -/
structure Chunking where
  size : Nat
  chunkSize : Nat
  size_lt : size < 2 ^ 64
  chunkSize_pos : 0 < chunkSize
  chunkSize_lt : chunkSize < 2 ^ 63

namespace Chunking

/-- The number of chunks, kept in an `int`. -/
def chunkSteps (op : Chunking) : Int := toInt ((op.size + op.chunkSize - 1) % 2 ^ 64 / op.chunkSize)

/-- The length of the next chunk after `total` bytes, kept in an `int`. -/
def stepSize (op : Chunking) (total : Nat) : Int := toInt (min op.chunkSize ((op.size + 2 ^ 64 - total) % 2 ^ 64))

/-- A `size_t` advanced by a length that was kept in an `int`. -/
def addSize (total : Nat) (stepSize : Int) : Nat := (total + toSize stepSize) % 2 ^ 64

/-! ### The chunks of the message -/

def steps (op : Chunking) : Nat := (op.size + op.chunkSize - 1) / op.chunkSize

def offset (op : Chunking) (chunk : Nat) : Nat := chunk * op.chunkSize

def length (op : Chunking) (chunk : Nat) : Nat := min op.chunkSize (op.size - op.offset chunk)

/-- The number of chunks and the length of a chunk are representable as `int`. -/
def Fits (op : Chunking) : Prop := min op.chunkSize op.size < 2 ^ 31 ∧ op.steps < 2 ^ 31

instance (op : Chunking) : Decidable op.Fits := inferInstanceAs (Decidable (_ ∧ _))

variable {op : Chunking} {k : Nat}

theorem lt_steps_iff : k < op.steps ↔ op.offset k < op.size := by
  have hpos := op.chunkSize_pos
  unfold steps offset
  rw [Nat.lt_iff_add_one_le, Nat.le_div_iff_mul_le hpos, Nat.add_mul, Nat.one_mul]
  omega

theorem offset_succ (op : Chunking) (k : Nat) : op.offset (k + 1) = op.offset k + op.chunkSize := Nat.succ_mul k op.chunkSize

theorem size_le (op : Chunking) : op.size ≤ op.offset op.steps :=
  Nat.le_of_not_lt fun hlt => Nat.lt_irrefl op.steps (lt_steps_iff.2 hlt)

theorem exists_chunk {b : Nat} (hb : b < op.size) : ∃ k < op.steps, op.offset k ≤ b ∧ b < op.offset k + op.length k := by
  have hdiv := Nat.div_mul_le_self b op.chunkSize
  have hmod := Nat.lt_div_mul_add (a := b) op.chunkSize_pos
  refine ⟨b / op.chunkSize, lt_steps_iff.2 ?_, ?_, ?_⟩
  · exact Nat.lt_of_le_of_lt hdiv hb
  · exact hdiv
  · unfold length offset
    omega

theorem chunk_unique {b j : Nat} (hk : op.offset k ≤ b ∧ b < op.offset k + op.length k)
    (hj : op.offset j ≤ b ∧ b < op.offset j + op.length j) : j = k := by
  have hle : ∀ k, op.offset k + op.length k ≤ op.offset (k + 1) := by
    intro k
    rw [offset_succ, length]
    exact Nat.add_le_add_left (Nat.min_le_left _ _) _
  have hmono : ∀ {i k}, i < k → op.offset (i + 1) ≤ op.offset k := fun h => Nat.mul_le_mul_right op.chunkSize h
  rcases Nat.lt_trichotomy j k with h | h | h
  · have := hmono h
    have := hle j
    omega
  · exact h
  · have := hmono h
    have := hle k
    omega

namespace Fits

section

variable (h : op.Fits)
include h

theorem round_lt : op.size + op.chunkSize - 1 < 2 ^ 64 := by
  have hlt := op.chunkSize_lt
  by_cases hs : op.size < 2 ^ 31
  · omega
  · have hcs : op.chunkSize < 2 ^ 31 := by
      have := h.1
      omega
    have hsize := op.size_le
    have hmul : op.offset op.steps ≤ (2 ^ 31 - 1) * (2 ^ 31 - 1) :=
      Nat.mul_le_mul (Nat.le_sub_one_of_lt h.2) (Nat.le_sub_one_of_lt hcs)
    omega

theorem chunkSteps : op.chunkSteps = op.steps := by
  rw [Chunking.chunkSteps, Nat.mod_eq_of_lt h.round_lt]
  exact toInt_of_lt h.2

theorem length_lt (k : Nat) : op.length k < 2 ^ 31 := by
  have := h.1
  unfold Chunking.length
  omega

theorem stepSize (hk : k < op.steps) : op.stepSize (min (op.offset k) op.size) = op.length k := by
  have hoff := lt_steps_iff.1 hk
  have hsize := op.size_lt
  have hlen := h.length_lt k
  rw [Chunking.stepSize, Nat.min_eq_left (Nat.le_of_lt hoff), show op.size + 2 ^ 64 - op.offset k = op.size - op.offset k + 2 ^ 64 by omega,
    Nat.add_mod_right, Nat.mod_eq_of_lt (by omega)]
  exact toInt_of_lt hlen

theorem toSize_length (k : Nat) : toSize (op.length k) = op.length k :=
  toSize_ofNat (Nat.lt_trans (h.length_lt k) (by decide))

theorem total (hk : k < op.steps) : addSize (min (op.offset k) op.size) (op.length k) = min (op.offset (k + 1)) op.size := by
  have hoff := lt_steps_iff.1 hk
  have hsize := op.size_lt
  rw [addSize, h.toSize_length, Nat.min_eq_left (Nat.le_of_lt hoff), op.offset_succ]
  unfold Chunking.length
  omega

end

end Fits

end Chunking

end FlagCX.Lib
