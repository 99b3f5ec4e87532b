import Mathlib.Tactic.Ring

/-!
# Uneven distribution

`total` elements over `parts` consecutive parts, as evenly as possible: the first `total % parts` parts get one element
more than the others. The parts tile `[0, total)`.
-/

namespace FlagCX

/-- The number of elements of part `k`. -/
def partCount (total parts k : Nat) : Nat := total / parts + if k < total % parts then 1 else 0

/-- The first element of part `k`. -/
def partOffset (total parts k : Nat) : Nat := k * (total / parts) + min k (total % parts)

variable {total parts : Nat}

theorem partOffset_succ (k : Nat) : partOffset total parts (k + 1) = partOffset total parts k + partCount total parts k := by
  unfold partOffset partCount
  rw [Nat.succ_mul]
  split_ifs <;> omega

theorem partOffset_mono : Monotone (partOffset total parts) := monotone_nat_of_le_succ fun k => by
    rw [partOffset_succ]
    exact Nat.le_add_right _ _

theorem partOffset_parts (h : 0 < parts) : partOffset total parts parts = total := by
  have hlt := Nat.mod_lt total h
  unfold partOffset
  rw [min_eq_right hlt.le]
  exact Nat.div_add_mod total parts

theorem partOffset_add_le {k : Nat} (h : k < parts) : partOffset total parts k + partCount total parts k ≤ total := by
  rw [← partOffset_succ]
  calc partOffset total parts (k + 1) ≤ partOffset total parts parts := partOffset_mono h
    _ = total := partOffset_parts (by omega)

theorem exists_part {e : Nat} (hp : 0 < parts) (he : e < total) :
    ∃ k < parts, ∃ j < partCount total parts k, e = partOffset total parts k + j := by
  have key : ∀ m, e < partOffset total parts m → ∃ k < m, ∃ j < partCount total parts k, e = partOffset total parts k + j := by
    intro m
    induction m with
    | zero => intro h; simp [partOffset] at h
    | succ m ih =>
      intro h
      by_cases hm : e < partOffset total parts m
      · obtain ⟨k, hk, hj⟩ := ih hm
        exact ⟨k, by omega, hj⟩
      · rw [partOffset_succ] at h
        exact ⟨m, by omega, e - partOffset total parts m, by omega, by omega⟩
  exact key parts (by rwa [partOffset_parts hp])

theorem part_unique {k k' j j' : Nat} (hj : j < partCount total parts k) (hj' : j' < partCount total parts k')
    (h : partOffset total parts k + j = partOffset total parts k' + j') : k = k' ∧ j = j' := by
  have hlt : ∀ {a b : Nat}, a < b → partOffset total parts a + partCount total parts a ≤ partOffset total parts b := by
    intro a b hab
    rw [← partOffset_succ]
    exact partOffset_mono hab
  rcases lt_trichotomy k k' with hk | rfl | hk
  · have := hlt hk
    omega
  · exact ⟨rfl, by omega⟩
  · have := hlt hk
    omega

end FlagCX
