import Mathlib.Data.List.Range

/-!
# Values by step

A map from steps to the values pushed under them, walked by ascending step.

* `StepMap`        : the map, with its keys in order and no key without a value.
* `StepMap.push`   : pushing a value behind those of its step.
* `StepMap.values` : the values, step by step.
-/

namespace FlagCX.Lib
open List
variable {α : Type}

/-- `std::map<int, std::vector<α>>`: the keys ascend. -/
structure StepMap (α : Type) where
  entries : List (Int × List α)
  sorted : entries.Pairwise fun a b => a.1 < b.1
  nonempty : ∀ e ∈ entries, e.2 ≠ []

namespace StepMap

def pushEntry (k : Int) (v : α) : List (Int × List α) → List (Int × List α)
  | [] => [(k, [v])]
  | e :: es =>
    if k < e.1 then (k, [v]) :: e :: es
    else if k = e.1 then (e.1, e.2 ++ [v]) :: es
    else e :: pushEntry k v es

variable {es : List (Int × List α)}

theorem pushEntry_key {k : Int} {v : α} {e : Int × List α} (h : e ∈ pushEntry k v es) : e.1 = k ∨ ∃ e' ∈ es, e'.1 = e.1 := by
  induction es with
  | nil =>
    obtain rfl := mem_singleton.1 h
    exact .inl rfl
  | cons a es ih =>
    unfold pushEntry at h
    split_ifs at h
    · rcases mem_cons.1 h with rfl | h
      · exact .inl rfl
      · exact .inr ⟨e, h, rfl⟩
    · rcases mem_cons.1 h with rfl | h
      · exact .inr ⟨a, mem_cons_self, rfl⟩
      · exact .inr ⟨e, mem_cons_of_mem _ h, rfl⟩
    · rcases mem_cons.1 h with rfl | h
      · exact .inr ⟨e, mem_cons_self, rfl⟩
      · rcases ih h with h | ⟨e', he', h⟩
        · exact .inl h
        · exact .inr ⟨e', mem_cons_of_mem _ he', h⟩

theorem pushEntry_sorted (k : Int) (v : α) (h : es.Pairwise fun a b => a.1 < b.1) :
    (pushEntry k v es).Pairwise fun a b => a.1 < b.1 := by
  induction es with
  | nil => exact pairwise_singleton _ _
  | cons a es ih =>
    obtain ⟨ha, hes⟩ := pairwise_cons.1 h
    unfold pushEntry
    split_ifs with h1 h2
    · refine pairwise_cons.2 ⟨fun e he => ?_, h⟩
      rcases mem_cons.1 he with rfl | he
      · exact h1
      · exact Int.lt_trans h1 (ha e he)
    · exact pairwise_cons.2 ⟨ha, hes⟩
    · refine pairwise_cons.2 ⟨fun e he => ?_, ih hes⟩
      rcases pushEntry_key he with hk | ⟨e', he', hk⟩
      · omega
      · rw [← hk]
        exact ha e' he'

theorem pushEntry_nonempty (k : Int) (v : α) (h : ∀ e ∈ es, e.2 ≠ []) : ∀ e ∈ pushEntry k v es, e.2 ≠ [] := by
  induction es with
  | nil =>
    intro e he
    obtain rfl := mem_singleton.1 he
    exact cons_ne_nil v []
  | cons a es ih =>
    have htail := ih fun e he => h e (mem_cons_of_mem _ he)
    unfold pushEntry
    split_ifs
    · intro e he
      rcases mem_cons.1 he with rfl | he
      · exact cons_ne_nil v []
      · exact h e he
    · intro e he
      rcases mem_cons.1 he with rfl | he
      · exact append_ne_nil_of_right_ne_nil a.2 (cons_ne_nil v [])
      · exact h e (mem_cons_of_mem _ he)
    · intro e he
      rcases mem_cons.1 he with rfl | he
      · exact h e mem_cons_self
      · exact htail e he

def empty : StepMap α := ⟨[], List.Pairwise.nil, fun _ h => absurd h List.not_mem_nil⟩

def push (m : StepMap α) (k : Int) (v : α) : StepMap α :=
  ⟨pushEntry k v m.entries, pushEntry_sorted k v m.sorted, pushEntry_nonempty k v m.nonempty⟩

def values (m : StepMap α) : List α := m.entries.flatMap Prod.snd

end StepMap

end FlagCX.Lib
