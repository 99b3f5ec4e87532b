import Mathlib.Data.Finset.Card

/-!
# Tables that number their keys

A table gives every new key the next number. Each key has a number of its own, so that cells addressed through the table
are cells of their keys.

* `KeyTable`              : the table; `find?`, `add` : look a key up, enter it.
* `find?_inj`             : no two keys have one number.
* `find?_add`             : what entering a key changes.
* `toFinset_addAll`       : the keys of a table after a list of keys has been entered.
-/

namespace FlagCX.Lib
open List Option

/-- The keys in the order they were entered. -/
structure KeyTable (κ : Type) where
  keys : List κ
  nodup : keys.Nodup

namespace KeyTable
variable {κ : Type}

def empty : KeyTable κ := ⟨[], nodup_nil⟩

@[simp] theorem keys_empty : (empty : KeyTable κ).keys = [] := rfl

variable [DecidableEq κ]

def size (m : KeyTable κ) : Nat := m.keys.length

def find? (m : KeyTable κ) (k : κ) : Option Nat := if k ∈ m.keys then some (m.keys.idxOf k) else none

def add (m : KeyTable κ) (k : κ) : KeyTable κ :=
  if h : k ∈ m.keys then m else ⟨m.keys ++ [k], by
    rw [nodup_append]
    exact ⟨m.nodup, nodup_singleton k, by grind⟩⟩

variable {m : KeyTable κ} {k k' : κ} {i : Nat}

theorem find?_of_mem (h : k ∈ m.keys) : m.find? k = some (m.keys.idxOf k) := if_pos h

theorem find?_eq_none : m.find? k = none ↔ k ∉ m.keys := by
  rw [find?]
  split_ifs with h <;> simp [h]

theorem mem_of_find? (h : m.find? k = some i) : k ∈ m.keys := by
  by_contra hk
  rw [find?_eq_none.2 hk] at h
  cases h

theorem find?_lt (h : m.find? k = some i) : i < m.size := by
  have hk := mem_of_find? h
  rw [find?_of_mem hk, some.injEq] at h
  subst h
  exact idxOf_lt_length_iff.2 hk

theorem find?_inj (h : m.find? k = some i) (h' : m.find? k' = some i) : k = k' := by
  have hk := mem_of_find? h
  have hk' := mem_of_find? h'
  rw [find?_of_mem hk, some.injEq] at h
  rw [find?_of_mem hk', some.injEq] at h'
  exact (idxOf_inj hk).1 (h.trans h'.symm)

theorem mem_add : k' ∈ (m.add k).keys ↔ k' = k ∨ k' ∈ m.keys := by
  rw [add]
  split_ifs with h
  · constructor
    · exact Or.inr
    · rintro (rfl | h')
      · exact h
      · exact h'
  · simp only [mem_append, mem_singleton]
    tauto

theorem add_of_mem (h : k ∈ m.keys) : m.add k = m := dif_pos h

theorem keys_add (h : k ∉ m.keys) : (m.add k).keys = m.keys ++ [k] := by rw [add, dif_neg h]

theorem size_add (h : k ∉ m.keys) : (m.add k).size = m.size + 1 := by
  rw [size, size, keys_add h, length_append, length_singleton]

theorem find?_add (h : k ∉ m.keys) : (m.add k).find? k' = if k' = k then some m.size else m.find? k' := by
  rw [find?, find?, keys_add h]
  split_ifs with h1 h2 h3 h2 h3
  · subst h2
    rw [idxOf_append_of_notMem h, idxOf_cons_self]
    rfl
  · rw [idxOf_append_of_mem h3]
  · grind
  · grind
  · grind
  · rfl

def addAll (m : KeyTable κ) (ks : List κ) : KeyTable κ := ks.foldl add m

theorem toFinset_addAll (ks : List κ) : (m.addAll ks).keys.toFinset = m.keys.toFinset ∪ ks.toFinset := by
  induction ks generalizing m with
  | nil => simp [addAll]
  | cons k ks ih =>
    have hstep : m.addAll (k :: ks) = (m.add k).addAll ks := rfl
    rw [hstep, ih]
    ext x
    simp only [Finset.mem_union, List.mem_toFinset, mem_add, mem_cons]
    tauto

theorem countP_flip {p q : κ → Bool} (hk : k ∈ m.keys) (hp : p k = true) (hq : q k = false)
    (hother : ∀ k' ≠ k, q k' = p k') : m.keys.countP p = m.keys.countP q + 1 := by
  have hperm := perm_cons_erase hk
  have hnotMem : k ∉ m.keys.erase k := m.nodup.not_mem_erase
  have hrest : (m.keys.erase k).countP q = (m.keys.erase k).countP p := by
    refine countP_congr fun k' hk' => ?_
    have hne : k' ≠ k := by
      intro heq
      subst heq
      exact hnotMem hk'
    rw [hother k' hne]
  rw [hperm.countP_eq p, hperm.countP_eq q, countP_cons_of_pos hp, countP_cons_of_neg (by simp [hq]), hrest]

theorem size_eq_card (m : KeyTable κ) : m.size = m.keys.toFinset.card := (toFinset_card_of_nodup m.nodup).symm

end KeyTable

end FlagCX.Lib
