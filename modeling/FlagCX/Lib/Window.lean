import Mathlib.Data.Fintype.Basic
import Mathlib.Algebra.BigOperators.Group.Finset.Piecewise

/-!
# Slot arrays indexed modulo their length

A window of `c` consecutive numbers meets every residue modulo `c` once, so an array of `c` slots holds a window of
numbers without clashes (`mod_inj_window`). `occupied_update_*` follow the number of occupied slots through one write,
`dropNumber` closes the gap that a removed number leaves.
-/

namespace FlagCX.Lib
open Function

variable {c a b : Nat}

/-- Two numbers of one window of length `c` with the same slot are equal. -/
theorem mod_inj_window {n : Nat} (ha : n ≤ a) (ha' : a < n + c) (hb : n ≤ b) (hb' : b < n + c)
    (h : a % c = b % c) : a = b := by
  rcases le_total a b with hab | hab
  · have hd : c ∣ b - a := Nat.dvd_of_mod_eq_zero (Nat.sub_mod_eq_zero_of_mod_eq h.symm)
    have := Nat.eq_zero_of_dvd_of_lt hd (by omega)
    omega
  · have hd : c ∣ a - b := Nat.dvd_of_mod_eq_zero (Nat.sub_mod_eq_zero_of_mod_eq h)
    have := Nat.eq_zero_of_dvd_of_lt hd (by omega)
    omega

theorem slot_ne {p : Nat} (ha : a < p) (ha' : p ≤ a + c) (hb : b < p) (hb' : p ≤ b + c) (hne : a ≠ b) : a % c ≠ b % c :=
  fun he => hne (mod_inj_window (n := p - c) (by omega) (by omega) (by omega) (by omega) he)

/-- An earlier number with the same slot is at least a whole round earlier. -/
theorem add_le_of_slot_eq (hab : a < b) (he : a % c = b % c) : a + c ≤ b := by
  by_contra hlt
  exact absurd (mod_inj_window (n := a) le_rfl (by omega) hab.le (by omega) he) (ne_of_lt hab)

section Card
variable {α : Type} (P : α → Prop) [DecidablePred P]

/-- The number of slots below `c` whose content satisfies `P`. -/
def occupied (c : Nat) (f : Nat → α) : Nat := ((Finset.range c).filter fun i => P (f i)).card

theorem occupied_le (c : Nat) (f : Nat → α) : occupied P c f ≤ c := by
  simpa [occupied] using Finset.card_filter_le (Finset.range c) fun i => P (f i)

variable {f : Nat → α} {i : Nat}

theorem occupied_pos (hi : i < c) (hP : P (f i)) : 0 < occupied P c f := Finset.card_pos.2 ⟨i, by simp [hi, hP]⟩

theorem occupied_eq_zero (h : occupied P c f = 0) (hi : i < c) : ¬ P (f i) := by
  intro hP
  have := occupied_pos P hi hP
  omega

theorem occupied_update_fill {v : α} (hi : i < c) (h : ¬ P (f i)) (hv : P v) :
    occupied P c (update f i v) = occupied P c f + 1 := by
  have he : (Finset.range c).filter (fun j => P (update f i v j)) =
      insert i ((Finset.range c).filter fun j => P (f j)) := by
    ext j
    by_cases hj : j = i
    · subst hj; simp [hi, hv]
    · simp [hj]
  rw [occupied, he, Finset.card_insert_of_notMem (by simp [h])]
  rfl

theorem occupied_update_free {v : α} (hi : i < c) (h : P (f i)) (hv : ¬ P v) :
    occupied P c (update f i v) + 1 = occupied P c f := by
  have h1 := occupied_update_fill P (f := update f i v) (v := f i) hi (by simpa using hv) h
  rw [update_idem, update_eq_self] at h1
  exact h1.symm

theorem occupied_congr {g : Nat → α} (h : ∀ i < c, P (f i) ↔ P (g i)) : occupied P c f = occupied P c g := by
  unfold occupied
  congr 1
  exact Finset.filter_congr fun i hi => h i (Finset.mem_range.1 hi)

theorem occupied_update_same {v : α} (h : P (f i) ↔ P v) : occupied P c (update f i v) = occupied P c f := by
  unfold occupied
  congr 1
  refine Finset.filter_congr fun j _ => ?_
  by_cases hj : j = i
  · subst hj; simp [h]
  · rw [update_of_ne hj]

end Card

theorem sum_update {ι α : Type} [Fintype ι] [DecidableEq ι] (w : α → Nat) (f : ι → α) (i : ι) (v : α) :
    ∑ k, w (update f i v k) + w (f i) = ∑ k, w (f k) + w v := by
  have hnew : ∑ k, w (update f i v k) = w v + ∑ k ∈ Finset.univ \ {i}, w (f k) := by
    have h := Finset.sum_update_of_mem (Finset.mem_univ i) (w ∘ f) (w v)
    rwa [← comp_update] at h
  have hold : ∑ k, w (f k) = w (f i) + ∑ k ∈ Finset.univ \ {i}, w (f k) := by
    have h := Finset.sum_update_of_mem (Finset.mem_univ i) (w ∘ f) (w (f i))
    rwa [← comp_update, update_eq_self] at h
  omega

/-! ## Taking one number out of a numbering -/

/-- The new number of `n` after `s` was taken out and the later ones moved down. -/
def dropNumber (s n : Nat) : Nat := if s ≤ n then n - 1 else n

theorem dropNumber_le {s n w : Nat} (hs : 0 < s) (hn : n ≠ s) : dropNumber s n ≤ dropNumber s w ↔ n ≤ w := by
  unfold dropNumber
  split_ifs <;> omega

theorem dropNumber_mono (s : Nat) (h : a ≤ b) : dropNumber s a ≤ dropNumber s b := by
  unfold dropNumber
  split_ifs <;> omega

theorem dropNumber_inj {s n m : Nat} (hn : n ≠ s) (hm : m ≠ s) (h : dropNumber s n = dropNumber s m) : n = m := by
  unfold dropNumber at h
  split_ifs at h <;> omega

theorem exists_dropNumber (s m : Nat) : ∃ n, n ≠ s ∧ dropNumber s n = m := by
  refine ⟨if m < s then m else m + 1, ?_, ?_⟩
  · split_ifs <;> omega
  · unfold dropNumber
    split_ifs <;> omega

end FlagCX.Lib
