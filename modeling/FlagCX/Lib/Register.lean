import Mathlib.Algebra.BigOperators.Group.List.Basic

/-!
# Registers that are added to and overwritten

Writers claim amounts for a register. A write either adds its claim or stores a value that stands for a sum of claims. The
register ends with the sum of all claims exactly when the last store was the sum of the claims written so far
(`settle_eq_iff`): earlier stores do not matter, and additions after it are kept.
-/

namespace FlagCX.Lib
open List

/-- A write to a register. -/
inductive Touch (α : Type) where
  | add (v : α)
  | store (v : α)
  deriving DecidableEq

namespace Touch

variable {α β : Type}

def apply [Add α] (x : α) : Touch α → α
  | add v => x + v
  | store v => v

/-- The register after the writes, in their order. -/
def settle [Add α] (x : α) (ts : List (Touch α)) : α := ts.foldl apply x

def IsStore : Touch α → Prop
  | add _ => False
  | store _ => True

instance : DecidablePred (IsStore (α := α)) := fun t => by
  cases t
  · exact inferInstanceAs (Decidable False)
  · exact inferInstanceAs (Decidable True)

variable {write : β → Touch α} {claim : β → α} {ds : List β}

theorem exists_last_store (h : ∃ d ∈ ds, (write d).IsStore) :
    ∃ pre d post, ds = pre ++ d :: post ∧ (write d).IsStore ∧ ∀ e ∈ post, ¬ (write e).IsStore := by
  induction ds with
  | nil =>
    obtain ⟨d, hd, -⟩ := h
    exact absurd hd not_mem_nil
  | cons d ds ih =>
    by_cases hlater : ∃ e ∈ ds, (write e).IsStore
    · obtain ⟨pre, e, post, rfl, he, hpost⟩ := ih hlater
      exact ⟨d :: pre, e, post, rfl, he, hpost⟩
    · push Not at hlater
      obtain ⟨e, he, hstore⟩ := h
      rcases mem_cons.1 he with rfl | he
      · exact ⟨[], e, ds, rfl, hstore, hlater⟩
      · exact absurd hstore (hlater e he)

section
variable [AddCommGroup α]

theorem settle_append (x : α) (ts ts' : List (Touch α)) : settle x (ts ++ ts') = settle (settle x ts) ts' := foldl_append ..

theorem settle_adds (hadd : ∀ d ∈ ds, write d = .add (claim d)) (x : α) :
    settle x (ds.map write) = x + (ds.map claim).sum := by
  induction ds generalizing x with
  | nil => simp [settle]
  | cons d ds ih =>
    rw [map_cons, map_cons, sum_cons, ← add_assoc, hadd d mem_cons_self]
    exact ih (fun e he => hadd e (mem_cons_of_mem _ he)) (x + claim d)

/-- **The last store decides.** -/
theorem settle_eq_iff (hadd : ∀ d ∈ ds, ∀ v, write d = .add v → v = claim d) :
    settle 0 (ds.map write) = (ds.map claim).sum ↔
      ∀ pre d post v, ds = pre ++ d :: post → write d = .store v → (∀ e ∈ post, ¬ (write e).IsStore) →
        v = ((pre ++ [d]).map claim).sum := by
  have hadds : ∀ {es : List β}, (∀ e ∈ es, e ∈ ds) → (∀ e ∈ es, ¬ (write e).IsStore) →
      ∀ e ∈ es, write e = .add (claim e) := by
    intro es hsub hno e he
    cases hw : write e with
    | add v => rw [hadd e (hsub e he) v hw]
    | store v =>
      have hstore := hno e he
      rw [hw] at hstore
      exact absurd trivial hstore
  -- both sides after the last store
  have hlast : ∀ {pre post : List β} {d : β} {v : α}, ds = pre ++ d :: post → write d = .store v →
      (∀ e ∈ post, ¬ (write e).IsStore) → (settle 0 (ds.map write) = (ds.map claim).sum ↔
        v = ((pre ++ [d]).map claim).sum) := by
    intro pre post d v hds hw hpost
    have hpost' := hadds (fun e he => by rw [hds]; exact mem_append_right _ (mem_cons_of_mem _ he)) hpost
    have hleft : settle 0 (ds.map write) = v + (post.map claim).sum := by
      rw [hds, map_append, map_cons, settle_append, hw]
      exact settle_adds hpost' v
    have hright : (ds.map claim).sum = ((pre ++ [d]).map claim).sum + (post.map claim).sum := by
      rw [hds, append_cons, map_append, sum_append]
    rw [hleft, hright]
    exact add_left_inj _
  constructor
  · intro h pre d post v hds hw hpost
    exact (hlast hds hw hpost).1 h
  · intro h
    by_cases hstores : ∃ d ∈ ds, (write d).IsStore
    · obtain ⟨pre, d, post, hds, hstore, hpost⟩ := exists_last_store hstores
      cases hw : write d with
      | add v =>
        rw [hw] at hstore
        exact absurd hstore id
      | store v => exact (hlast hds hw hpost).2 (h pre d post v hds hw hpost)
    · push Not at hstores
      rw [settle_adds (hadds (fun _ he => he) hstores), zero_add]

end

end Touch

end FlagCX.Lib
