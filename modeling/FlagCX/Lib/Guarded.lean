import Mathlib.Tactic.SplitIfs

/-!
# Runs whose steps meet a guard

A system is a partial step function on labelled states. `Reach` collects the states of the runs in which every step
meets a guard, and `Reach.invariant` is its induction rule; `exec` runs a list of labels, `counted` counts those of one
kind.
-/

namespace FlagCX.Lib
open List Option

section

variable {σ α : Type} (step : σ → α → Option σ) (ok : σ → α → Prop)

/-- The states reached from `s₀` when every label meets `ok` in the state it is taken from. -/
inductive Reach (s₀ : σ) : σ → Prop
  | init : Reach s₀ s₀
  | next {s s' : σ} (a : α) (h : Reach s₀ s) (hok : ok s a) (hstep : step s a = some s') : Reach s₀ s'

/-- Take the labels one after the other. -/
def exec : σ → List α → Option σ
  | s, [] => some s
  | s, a :: as => (step s a).bind fun s' => exec s' as

def counted (count : α → Bool) (x : σ × Nat) (a : α) : Option (σ × Nat) :=
  (step x.1 a).map fun s' => (s', x.2 + (count a).toNat)

end

section

variable {σ α : Type} {step : σ → α → Option σ} {ok ok' : σ → α → Prop} {s₀ s s' : σ}

/-- What holds at the start and is kept by every guarded step holds in every state reached. -/
theorem Reach.invariant {I : σ → Prop} (h : Reach step ok s₀ s) (h0 : I s₀)
    (hstep : ∀ s s' a, I s → ok s a → step s a = some s' → I s') : I s := by
  induction h with
  | init => exact h0
  | next a _ hok hs ih => exact hstep _ _ a ih hok hs

theorem Reach.mono (h : Reach step ok s₀ s) (hok : ∀ s a, ok s a → ok' s a) : Reach step ok' s₀ s := by
  induction h with
  | init => exact .init
  | next a _ ha hs ih => exact .next a ih (hok _ _ ha) hs

theorem Reach.trans (h : Reach step ok s₀ s) (h' : Reach step ok s s') : Reach step ok s₀ s' := by
  induction h' with
  | init => exact h
  | next a _ ha hs ih => exact .next a ih ha hs

theorem Reach.counted_invariant {count : α → Bool} {k : Nat} {I : σ → Nat → Prop}
    (h : Reach (counted step count) (fun x a => ok x.1 a) (s₀, 0) (s, k)) (h0 : I s₀ 0)
    (hstep : ∀ s s' a k, I s k → ok s a → step s a = some s' → I s' (k + (count a).toNat)) : I s k := by
  refine h.invariant (I := fun x => I x.1 x.2) h0 ?_
  rintro ⟨t, j⟩ x' a ht ha hs
  obtain ⟨t', ht', rfl⟩ := map_eq_some_iff.1 hs
  exact hstep t t' a j ht ha ht'

theorem exec_singleton (s : σ) (a : α) : exec step s [a] = step s a := by
  rw [exec]
  cases step s a <;> rfl

theorem exec_append (s : σ) (as bs : List α) : exec step s (as ++ bs) = (exec step s as).bind (exec step · bs) := by
  induction as generalizing s with
  | nil => rfl
  | cons a as ih =>
    rw [cons_append, exec, exec]
    cases step s a with
    | none => rfl
    | some s₁ => exact ih s₁

/-- A list of labels that all meet the guard runs to a state reached. -/
theorem Reach.of_exec {as : List α} (hok : ∀ s, ∀ a ∈ as, ok s a) (h : exec step s as = some s') : Reach step ok s s' := by
  induction as generalizing s with
  | nil =>
    cases h
    exact .init
  | cons a as ih =>
    obtain ⟨s₁, hs, h⟩ := bind_eq_some_iff.1 h
    have hhead : Reach step ok s s₁ := .next a .init (hok s a mem_cons_self) hs
    exact hhead.trans (ih (fun s b hb => hok s b (mem_cons_of_mem a hb)) h)

/-- A list of labels whose guard is checked on the way runs to a state reached. -/
theorem Reach.of_checked {check : σ → α → Bool} (hcheck : ∀ s a, check s a = true → ok s a) {as : List α}
    (h : exec (fun s a => if check s a then step s a else none) s as = some s') : Reach step ok s s' := by
  induction as generalizing s with
  | nil =>
    cases h
    exact .init
  | cons a as ih =>
    rw [exec] at h
    obtain ⟨s₁, hs, h⟩ := bind_eq_some_iff.1 h
    split_ifs at hs with hc
    have hhead : Reach step ok s s₁ := .next a .init (hcheck s a hc) hs
    exact hhead.trans (ih h)

end

end FlagCX.Lib
