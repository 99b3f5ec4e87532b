import Mathlib.Tactic.Common

/-!
# Computations that keep a property of their state

* `Keeps` : the state has the property behind every end of the computation, and its errors are of a kind.
* `Keeps.bind`, `Keeps.get`, `Keeps.forM`, `Keeps.foldlM` : the rules for its parts and its loops.
-/

namespace FlagCX.Lib

variable {ε σ α β : Type}

def Ended (P : σ → Prop) (E : ε → Prop) : EStateM.Result ε σ α → Prop
  | .ok _ s => P s
  | .error e s => E e ∧ P s

def Keeps (P : σ → Prop) (E : ε → Prop) (x : EStateM ε σ α) : Prop := ∀ s, P s → Ended P E (x s)

namespace Keeps
variable {P : σ → Prop} {E : ε → Prop} {x : EStateM ε σ α}

theorem pure (a : α) : Keeps P E (pure a : EStateM ε σ α) := fun _ h => h

theorem throw {e : ε} (h : E e) : Keeps P E (throw e : EStateM ε σ α) := fun _ hs => ⟨h, hs⟩

theorem set {s : σ} (h : P s) : Keeps P E (set s : EStateM ε σ PUnit) := fun _ _ => h

theorem modify {f : σ → σ} (h : ∀ s, P s → P (f s)) : Keeps P E (modify f : EStateM ε σ PUnit) := h

theorem bind {f : α → EStateM ε σ β} (hx : Keeps P E x) (hf : ∀ a, Keeps P E (f a)) : Keeps P E (x >>= f) := by
  intro s hs
  have hs := hx s hs
  change Ended P E (EStateM.bind x f s)
  unfold EStateM.bind
  cases h : x s with
  | ok a t =>
    rw [h] at hs
    exact hf a t hs
  | error e t =>
    rw [h] at hs
    exact hs

/-- What is read has the property. -/
theorem get {f : σ → EStateM ε σ β} (hf : ∀ s, P s → Keeps P E (f s)) : Keeps P E (get >>= f) :=
  fun s hs => hf s hs s hs

theorem forM {f : α → EStateM ε σ PUnit} (hf : ∀ a, Keeps P E (f a)) (as : List α) : Keeps P E (as.forM f) := by
  induction as with
  | nil => exact pure _
  | cons a as ih => exact bind (hf a) fun _ => ih

theorem foldlM {f : β → α → EStateM ε σ β} (hf : ∀ b a, Keeps P E (f b a)) (b : β) (as : List α) :
    Keeps P E (as.foldlM f b) := by
  induction as generalizing b with
  | nil => exact pure b
  | cons a as ih => exact bind (hf b a) ih

end Keeps

end FlagCX.Lib
