import Mathlib.Tactic.Common

/-!
# Logs whose entries are justified by what came before

`Justified P l` says of a log that `P` holds of every entry and the entries before it. It is checked entry by entry as the
log grows: `Justified.append`, `Justified.append_idle`.
-/

namespace FlagCX.Lib

variable {α : Type}

/-- `P` holds of every entry of the log and the entries before it. -/
def Justified (P : List α → α → Prop) (l : List α) : Prop := ∀ pre v post, l = pre ++ v :: post → P pre v

section
variable {P Q : List α → α → Prop} {l m : List α}

theorem justified_nil (P : List α → α → Prop) : Justified P [] := by
  intro pre v post h
  exact absurd h.symm (by simp)

theorem Justified.append (h : Justified P l) (hm : ∀ pre v post, m = pre ++ v :: post → P (l ++ pre) v) :
    Justified P (l ++ m) := by
  intro pre v post he
  rcases List.append_eq_append_iff.1 he with ⟨as, rfl, hcut⟩ | ⟨bs, rfl, hcut⟩
  · exact hm as v post hcut
  · cases bs with
    | nil => simpa using hm [] v post hcut.symm
    | cons b bs =>
      obtain ⟨rfl, -⟩ := List.cons.inj hcut
      exact h pre v bs rfl

theorem Justified.append_idle (h : Justified P l) (hm : ∀ v ∈ m, ∀ pre, P pre v) : Justified P (l ++ m) :=
  h.append fun pre v post he => hm v (by simp [he]) _

theorem Justified.of_mem (h : Justified P l) {v : α} (hv : v ∈ l) : ∃ pre post, l = pre ++ v :: post ∧ P pre v := by
  obtain ⟨pre, post, rfl⟩ := List.append_of_mem hv
  exact ⟨pre, post, rfl, h pre v post rfl⟩

theorem Justified.of_append (h : Justified P (l ++ m)) : Justified P l :=
  fun pre v post he => h pre v (post ++ m) (by simp [he])

theorem Justified.concat (h : Justified P l) {v : α} (hv : P l v) : Justified P (l ++ [v]) := by
  refine h.append fun pre w post he => ?_
  cases pre with
  | nil =>
    obtain ⟨rfl, -⟩ := List.cons.inj he
    simpa using hv
  | cons a as => simp at he

end

end FlagCX.Lib
