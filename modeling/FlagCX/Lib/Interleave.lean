import Mathlib.Data.List.Perm.Basic

/-!
# Lists merged in some order

`Interleaved gs l` : `l` takes the elements of the lists `gs`, each list in its own order.

* `Interleaved.perm`    : it takes all of them, and each once;
* `Interleaved.last_of` : its last element is the last one of some list.
-/

namespace FlagCX.Lib
open List

variable {α : Type} {gs : List (List α)} {l : List α}

/-- `l` is a merge of the lists of `gs`. -/
inductive Interleaved : List (List α) → List α → Prop
  | nil {gs : List (List α)} (h : ∀ g ∈ gs, g = []) : Interleaved gs []
  | cons (gs₁ gs₂ : List (List α)) {g l : List α} {a : α} (h : Interleaved (gs₁ ++ g :: gs₂) l) :
    Interleaved (gs₁ ++ (a :: g) :: gs₂) (a :: l)

theorem Interleaved.perm (h : Interleaved gs l) : l.Perm gs.flatten := by
  induction h with
  | nil hgs => rw [flatten_eq_nil_iff.2 hgs]
  | @cons gs₁ gs₂ g l a _ ih =>
    rw [flatten_append, flatten_cons] at ih ⊢
    refine (ih.cons a).trans ?_
    exact perm_middle.symm

theorem Interleaved.mem_iff (h : Interleaved gs l) {a : α} : a ∈ l ↔ ∃ g ∈ gs, a ∈ g := by
  rw [h.perm.mem_iff, mem_flatten]

theorem Interleaved.last_of {p : α → Prop} (h : Interleaved gs l) (hgs : ∀ g ∈ gs, ∀ a ∈ g.getLast?, p a) :
    ∀ a ∈ l.getLast?, p a := by
  induction h with
  | nil => simp
  | @cons gs₁ gs₂ g l a h ih =>
    have hg := hgs (a :: g) (by simp)
    cases l with
    | nil =>
      have hnil : g = [] := by
        apply eq_nil_iff_forall_not_mem.2
        intro b hb
        have := h.mem_iff.2 ⟨g, by simp, hb⟩
        simp at this
      subst hnil
      simpa using hg
    | cons b l =>
      apply ih
      intro g' hg'
      rcases mem_append.1 hg' with hmem | hmem
      · exact hgs g' (by simp [hmem])
      · rcases mem_cons.1 hmem with rfl | hmem
        · intro c hc
          apply hg
          cases g' with
          | nil => simp at hc
          | cons d g' => rwa [getLast?_cons_cons]
        · exact hgs g' (by simp [hmem])

end FlagCX.Lib
