import FlagCX.Lib.Window
import Mathlib.Data.Nat.Bitwise

/-!
# Ring buffers with wrapping word indices

A ring of `2 ^ b` slots whose producer and consumer indices are 32-bit words that are never reset. `Ring` ties the slots
and the two words to what was pushed, as a list, and to how much of it was popped.

* `Ring.size`, `Ring.slot_at`            : the difference of the words, and what stands at the masked indices.
* `Ring.le_iff`, `Ring.le_of_wrapped`    : comparing the words as numbers tells an empty ring exactly before the first
  wrap of the producer index.
-/

namespace FlagCX.Lib
open List Function

/-- `pushed` has been written to the ring so far, and the first `popped` of it were taken out. -/
structure Ring {α : Type} (b : Nat) (slots : Nat → α) (pi ci : UInt32) (pushed : List α) (popped : Nat) : Prop where
  producer : pi.toNat = pushed.length % 2 ^ 32
  consumer : ci.toNat = popped % 2 ^ 32
  le : popped ≤ pushed.length
  room : pushed.length ≤ popped + 2 ^ b
  slot : ∀ n v, popped ≤ n → pushed[n]? = some v → slots (n % 2 ^ b) = v

/-- Write a list of items from the index `pi` on. -/
def fill {α : Type} (mask : UInt32) : (Nat → α) → UInt32 → List α → Nat → α
  | slots, _, [] => slots
  | slots, pi, v :: vs => fill mask (update slots (pi &&& mask).toNat v) (pi + 1) vs

variable {mask : UInt32}

section Words

theorem mod_two_pow_mod {b : Nat} (hb : b < 32) (n : Nat) : n % 2 ^ 32 % 2 ^ b = n % 2 ^ b :=
  Nat.mod_mod_of_dvd n (Nat.pow_dvd_pow 2 hb.le)

theorem toNat_and_mask {b : Nat} (hm : mask.toNat = 2 ^ b - 1) (x : UInt32) : (x &&& mask).toNat = x.toNat % 2 ^ b := by
  rw [UInt32.toNat_and, hm, Nat.and_two_pow_sub_one_eq_mod]

theorem toNat_add_ofNat (x : UInt32) (k : Nat) : (x + UInt32.ofNat k).toNat = (x.toNat + k) % 2 ^ 32 := by
  exact Nat.add_mod_mod ..

end Words

namespace Ring

variable {α : Type} {b : Nat} {slots : Nat → α} {pi ci : UInt32} {pushed : List α} {popped : Nat}

theorem empty (b : Nat) (slots : Nat → α) : Ring b slots 0 0 [] 0 :=
  ⟨rfl, rfl, le_rfl, Nat.zero_le _, fun _ _ _ h => by simp at h⟩

section

variable (h : Ring b slots pi ci pushed popped)
include h

theorem size (hb : b < 32) : (pi - ci).toNat = pushed.length - popped := by
  have hpow : 2 ^ b < 2 ^ 32 := Nat.pow_lt_pow_right (by omega) hb
  have hle := h.le
  have hroom := h.room
  rw [UInt32.toNat_sub, h.producer, h.consumer]
  omega

theorem slot_at (hb : b < 32) (hm : mask.toNat = 2 ^ b - 1) {k : Nat} (hk : popped + k < pushed.length) :
    pushed[popped + k]? = some (slots ((ci + UInt32.ofNat k) &&& mask).toNat) := by
  have hidx : ((ci + UInt32.ofNat k) &&& mask).toNat = (popped + k) % 2 ^ b := by
    rw [toNat_and_mask hm, toNat_add_ofNat, h.consumer, Nat.mod_add_mod, mod_two_pow_mod hb]
  rw [hidx, getElem?_eq_getElem hk, h.slot _ _ (Nat.le_add_right ..) (getElem?_eq_getElem hk)]

theorem push (hb : b < 32) (hm : mask.toNat = 2 ^ b - 1) (hroom : pushed.length < popped + 2 ^ b) (v : α) :
    Ring b (update slots (pi &&& mask).toNat v) (pi + 1) ci (pushed ++ [v]) popped := by
  have hidx : (pi &&& mask).toNat = pushed.length % 2 ^ b := by rw [toNat_and_mask hm, h.producer, mod_two_pow_mod hb]
  refine ⟨?_, h.consumer, ?_, ?_, ?_⟩
  · have hone := toNat_add_ofNat pi 1
    rw [h.producer, Nat.mod_add_mod] at hone
    rw [length_append, length_singleton]
    exact hone
  · have := h.le
    rw [length_append]
    omega
  · rw [length_append, length_singleton]
    exact hroom
  · intro n w hn hw
    rw [hidx]
    by_cases hlast : n = pushed.length
    · subst hlast
      rw [getElem?_append_right le_rfl, Nat.sub_self] at hw
      cases hw
      rw [update_self]
    · have hlt : n < pushed.length := by
        have := (List.getElem?_eq_some_iff.1 hw).1
        rw [length_append, length_singleton] at this
        omega
      rw [getElem?_append_left hlt] at hw
      -- an item still in the ring does not stand at the slot that is written
      rw [update_of_ne, h.slot n w hn hw]
      intro he
      exact hlast (mod_inj_window (n := popped) (by omega) (by omega) h.le hroom he)

theorem append (hb : b < 32) (hm : mask.toNat = 2 ^ b - 1) (vs : List α)
    (hroom : pushed.length + vs.length ≤ popped + 2 ^ b) :
    Ring b (fill mask slots pi vs) (pi + UInt32.ofNat vs.length) ci (pushed ++ vs) popped := by
  induction vs generalizing slots pi pushed with
  | nil => simpa [fill] using h
  | cons v vs ih =>
    rw [length_cons] at hroom
    have hone := h.push hb hm (by omega) v
    have hrest := ih hone (by rw [length_append, length_singleton]; omega)
    have hpi : pi + 1 + UInt32.ofNat vs.length = pi + UInt32.ofNat (v :: vs).length := by
      rw [length_cons, UInt32.ofNat_add, UInt32.add_assoc, UInt32.add_comm 1]
      rfl
    rw [hpi, append_assoc] at hrest
    exact hrest

theorem pop {k : Nat} (hk : popped + k ≤ pushed.length) : Ring b slots pi (ci + UInt32.ofNat k) pushed (popped + k) := by
  refine ⟨h.producer, ?_, hk, by have := h.room; omega, fun n v hn hv => h.slot n v (by omega) hv⟩
  rw [toNat_add_ofNat, h.consumer, Nat.mod_add_mod]

theorem le_iff (hwrap : pushed.length < 2 ^ 32) : pi ≤ ci ↔ popped = pushed.length := by
  have hle := h.le
  rw [UInt32.le_iff_toNat_le, h.producer, h.consumer, Nat.mod_eq_of_lt hwrap, Nat.mod_eq_of_lt (by omega)]
  omega

theorem le_of_wrapped (hb : b < 32) (hwrap : 2 ^ 32 ≤ pushed.length) (hci : popped < 2 ^ 32) : pi ≤ ci := by
  have hpow : 2 ^ b < 2 ^ 32 := Nat.pow_lt_pow_right (by omega) hb
  have hroom := h.room
  rw [UInt32.le_iff_toNat_le, h.producer, h.consumer, Nat.mod_eq_of_lt hci]
  omega

end

end Ring

end FlagCX.Lib
