import Mathlib.Tactic.Common

/-!
# Bodies that return early

A part of a function body either returns a value, which ends the call, or falls through to the part after it.

* `Body`              : such a part, as a function on the state.
* `andThen`, `each`   : one part after another, and a loop whose body may return.
* `Post`              : what holds where the part falls through and where it returns.
* `Post.andThen`, `Post.each` : the rules for the two; the loop is by an invariant.
* `proceed` : a call as its caller sees it, who stops at some of the values.
-/

namespace FlagCX.Lib

/-- A part of a body: `none` falls through, `some r` ends the call with `r`. -/
abbrev Body (ρ σ : Type) := σ → Option ρ × σ

namespace Body

variable {ρ σ α : Type}

/-- One part after another. -/
def andThen (f g : Body ρ σ) : Body ρ σ := fun s =>
  match f s with
  | (none, s') => g s'
  | (some r, s') => (some r, s')

/-- A loop over a list, left at the first iteration that returns. -/
def each (f : α → Body ρ σ) : List α → Body ρ σ
  | [] => fun s => (none, s)
  | a :: as => (f a).andThen (each f as)

/-- The whole body; `ended` is the value of its last `return`. -/
def call (f : Body ρ σ) (ended : ρ) (s : σ) : ρ × σ := ((f s).1.getD ended, (f s).2)

/-- A call as its caller sees it, who goes on after some of the values and stops at the others. -/
def proceed (goOn : ρ → Bool) (f : σ → ρ × σ) : Body ρ σ := fun s =>
  if goOn (f s).1 then (none, (f s).2) else (some (f s).1, (f s).2)

/-- `Q` where the part falls through, `R` where it returns. -/
def Post (Q : σ → Prop) (R : ρ → σ → Prop) (out : Option ρ × σ) : Prop :=
  match out.1 with
  | none => Q out.2
  | some r => R r out.2

variable {f g : Body ρ σ} {Q Q' I : σ → Prop} {R R' : ρ → σ → Prop} {s : σ} {out : Option ρ × σ}

@[simp] theorem post_none : Post Q R (none, s) ↔ Q s := Iff.rfl

@[simp] theorem post_some {r : ρ} : Post Q R (some r, s) ↔ R r s := Iff.rfl

theorem Post.mono (h : Post Q R out) (hQ : ∀ s, Q s → Q' s) (hR : ∀ r s, R r s → R' r s) : Post Q' R' out := by
  obtain ⟨_ | r, s⟩ := out
  · exact hQ s h
  · exact hR r s h

theorem Post.andThen (h : Post I R (f s)) (hg : ∀ s', I s' → Post Q R (g s')) : Post Q R (f.andThen g s) := by
  unfold Body.andThen
  split
  · rename_i s' hf
    rw [hf] at h
    exact hg s' h
  · rename_i r s' hf
    rw [hf] at h
    exact h

theorem andThen_of_none {s' : σ} (h : f s = (none, s')) (g : Body ρ σ) : f.andThen g s = g s' := by
  unfold andThen
  rw [h]

theorem andThen_of_some {s' : σ} {r : ρ} (h : f s = (some r, s')) (g : Body ρ σ) : f.andThen g s = (some r, s') := by
  unfold andThen
  rw [h]

theorem andThen_assoc (f g k : Body ρ σ) : (f.andThen g).andThen k = f.andThen (g.andThen k) := by
  funext s
  unfold andThen
  rcases f s with ⟨_ | r, s'⟩ <;> rfl

/-- An invariant of the iterations is an invariant of the loop. -/
theorem Post.each {f : α → Body ρ σ} {as : List α} (hI : I s) (hf : ∀ a ∈ as, ∀ s, I s → Post I R (f a s)) :
    Post I R (each f as s) := by
  induction as generalizing s with
  | nil => exact hI
  | cons a as ih =>
    refine Post.andThen (hf a List.mem_cons_self s hI) fun s' hs' => ?_
    exact ih hs' fun b hb => hf b (List.mem_cons_of_mem a hb)

theorem Post.call {ended : ρ} (h : Post Q R (f s)) (hQ : ∀ s', Q s' → R ended s') :
    R (f.call ended s).1 (f.call ended s).2 := by
  unfold Body.call Post at *
  cases hr : (f s).1 with
  | none =>
    rw [hr] at h
    exact hQ _ h
  | some r =>
    rw [hr] at h
    exact h

theorem Post.proceed {goOn : ρ → Bool} {f : σ → ρ × σ}
    (h : if goOn (f s).1 then Q (f s).2 else R (f s).1 (f s).2) : Post Q R (proceed goOn f s) := by
  unfold Body.proceed
  split at h
  · rename_i hgo
    rwa [if_pos hgo]
  · rename_i hgo
    rwa [if_neg hgo]

end Body

end FlagCX.Lib
