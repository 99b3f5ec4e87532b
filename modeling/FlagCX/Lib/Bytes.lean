import Mathlib.Tactic.SplitIfs
import Mathlib.Data.List.GetD

/-!
# Buffers of bytes

* `read_write`, `read_write_apart` : what is written is read, and the rest stays as it is.
* `writeAll` : several blocks written one after the other. `read_writeAll` reads one of them that no other one meets.
-/

namespace FlagCX.Lib
open List Option

abbrev Buffer := Nat → UInt8

namespace Buffer

def read (b : Buffer) (offset size : Nat) : List UInt8 := (List.range size).map fun k => b (offset + k)

def write (b : Buffer) (offset : Nat) (bytes : List UInt8) : Buffer := fun k =>
  if offset ≤ k then bytes.getD (k - offset) (b k) else b k

/-- Two blocks have no byte in common. -/
def Apart (offset size offset' size' : Nat) : Prop := ∀ k < size, ∀ k' < size', offset + k ≠ offset' + k'

theorem apart_blocks {i j : Nat} (h : i ≠ j) (offset size : Nat) :
    Apart (offset + i * size) size (offset + j * size) size := by
  intro k hk k' hk' heq
  have hdiv : ∀ {i k : Nat}, k < size → (i * size + k) / size = i := fun hk => by
    rw [Nat.mul_comm, Nat.mul_add_div (by omega), Nat.div_eq_of_lt hk, Nat.add_zero]
  have hsame : i * size + k = j * size + k' := by omega
  refine h ?_
  exact (hdiv hk).symm.trans ((congrArg (· / size) hsame).trans (hdiv hk'))

section
variable {b : Buffer} {offset size : Nat} {bytes : List UInt8}

@[simp] theorem length_read : (b.read offset size).length = size := by rw [read, length_map, length_range]

theorem getElem?_read {k : Nat} (hk : k < size) : (b.read offset size)[k]? = some (b (offset + k)) := by
  rw [read, getElem?_map, getElem?_range hk]
  rfl

variable {offset' : Nat}

theorem read_eq {b' : Buffer} : b.read offset size = b'.read offset' size ↔
    ∀ k < size, b (offset + k) = b' (offset' + k) := by
  constructor
  · intro h k hk
    have hget := congrArg (·[k]?) h
    rw [getElem?_read hk, getElem?_read hk] at hget
    exact some.inj hget
  · exact fun h => map_congr_left fun k hk => h k (mem_range.1 hk)

theorem take_read {n : Nat} (h : n ≤ size) : (b.read offset size).take n = b.read offset n := by
  rw [read, read, ← map_take, take_range, Nat.min_eq_left h]

theorem write_mem {k : Nat} (hk : k < bytes.length) : some (b.write offset bytes (offset + k)) = bytes[k]? := by
  rw [write, if_pos (Nat.le_add_right _ _), Nat.add_sub_cancel_left, getD_eq_getElem?_getD, getElem?_eq_getElem hk]
  rfl

theorem write_not_mem {k : Nat} (h : ∀ j < bytes.length, offset + j ≠ k) : b.write offset bytes k = b k := by
  rw [write]
  split_ifs with hk
  · have hlength : bytes.length ≤ k - offset := Nat.not_lt.1 fun hlt => h (k - offset) hlt (by omega)
    rw [getD_eq_default _ _ hlength]
  · rfl

@[simp] theorem write_nil : b.write offset [] = b := funext fun _ => write_not_mem fun _ hj => absurd hj (Nat.not_lt_zero _)

@[simp] theorem write_read : b.write offset (b.read offset size) = b := by
  funext k
  by_cases hmem : ∃ j < (b.read offset size).length, offset + j = k
  · obtain ⟨j, hj, rfl⟩ := hmem
    have hwrite : some (b.write offset (b.read offset size) (offset + j)) = _ := write_mem hj
    rw [length_read] at hj
    rw [getElem?_read hj] at hwrite
    exact some.inj hwrite
  · exact write_not_mem fun j hj heq => hmem ⟨j, hj, heq⟩

theorem read_write : (b.write offset bytes).read offset bytes.length = bytes := by
  refine ext_getElem? fun k => ?_
  rcases Nat.lt_or_ge k bytes.length with hk | hk
  · rw [getElem?_read hk, write_mem hk]
  · rw [getElem?_eq_none (by rw [length_read]; exact hk), getElem?_eq_none hk]

theorem read_write_read {b' : Buffer} : (b.write offset (b'.read offset' size)).read offset size = b'.read offset' size := by
  have hread : (b.write offset (b'.read offset' size)).read offset (b'.read offset' size).length = _ := read_write
  rwa [length_read] at hread

theorem read_write_apart (h : Apart offset size offset' bytes.length) :
    (b.write offset' bytes).read offset size = b.read offset size :=
  read_eq.2 fun k hk => write_not_mem fun j hj => (h k hk j hj).symm

end

/-! ## Several blocks -/

/-- The blocks `0`, `1`, ..., `n - 1` are written in this order. -/
def writeAll (b : Buffer) (offset : Nat → Nat) (bytes : Nat → List UInt8) (n : Nat) : Buffer :=
  (List.range n).foldl (fun b i => b.write (offset i) (bytes i)) b

section
variable {b : Buffer} {offset : Nat → Nat} {bytes : Nat → List UInt8} {n : Nat}

theorem writeAll_succ : b.writeAll offset bytes (n + 1) = (b.writeAll offset bytes n).write (offset n) (bytes n) := by
  rw [writeAll, range_succ, foldl_append]
  rfl

theorem read_writeAll {i : Nat} (hi : i < n)
    (h : ∀ j < n, j ≠ i → Apart (offset i) (bytes i).length (offset j) (bytes j).length) :
    (b.writeAll offset bytes n).read (offset i) (bytes i).length = bytes i := by
  induction n with
  | zero => cases hi
  | succ n ih =>
    rw [writeAll_succ]
    by_cases hin : i = n
    · rw [hin]
      exact read_write
    · rw [read_write_apart (h n (Nat.lt_succ_self n) (Ne.symm hin))]
      exact ih (by omega) fun j hj => h j (by omega)

theorem writeAll_cell {Q : UInt8 → Prop} {k : Nat} (hb : Q (b k))
    (h : ∀ i < n, ∀ j v, (bytes i)[j]? = some v → offset i + j = k → Q v) : Q (b.writeAll offset bytes n k) := by
  induction n with
  | zero => exact hb
  | succ n ih =>
    rw [writeAll_succ]
    by_cases hmem : ∃ j < (bytes n).length, offset n + j = k
    · obtain ⟨j, hj, rfl⟩ := hmem
      exact h n (Nat.lt_succ_self n) j _ (write_mem hj).symm rfl
    · rw [write_not_mem fun j hj heq => hmem ⟨j, hj, heq⟩]
      exact ih fun i hi => h i (by omega)

end

end Buffer

end FlagCX.Lib
