import Mathlib.Data.List.Pairwise
import Mathlib.Data.List.Sort

/-!
# Ranges of addresses in an ordered map

An ordered map from the starts of ranges to their lengths, as the list of its entries in the order of the keys.

* `Ranges.Covers`    : an address lies in a range of the map.
* `Separated`        : the ranges are not empty, and between any two lies an address of neither.
* `Separated.within` : adjacent addresses that are covered lie in one range.
* `Separated.ext`    : the covered addresses determine the map.
-/

namespace FlagCX.Lib
open List

section

variable {α : Type} {R : α → α → Prop} {l : List α} {p : α → Bool} {r x : α}

theorem pairwise_cases (h : l.Pairwise R) (hr : r ∈ l) (hx : x ∈ l) : r = x ∨ R r x ∨ R x r := by
  have : Std.Symm fun r x => r = x ∨ R r x ∨ R x r := ⟨fun r x hrx => by
    obtain heq | hlt | hlt := hrx
    · exact .inl heq.symm
    · exact .inr (.inr hlt)
    · exact .inr (.inl hlt)⟩
  have hor : l.Pairwise fun r x => r = x ∨ R r x ∨ R x r := h.imp fun hlt => .inr (.inl hlt)
  exact hor.forall_of_forall (fun r _ => .inl rfl) hr hx

/-- The last element that meets `p` comes after all the others that do. -/
theorem pairwise_last (h : l.Pairwise R) (hl : (l.filter p).getLast? = some r) :
    r ∈ l ∧ p r ∧ ∀ x ∈ l, p x → x = r ∨ R x r := by
  obtain ⟨init, hinit⟩ := getLast?_eq_some_iff.1 hl
  have hmem : ∀ x, x ∈ init ++ [r] ↔ x ∈ l ∧ p x := fun x => by rw [← hinit, mem_filter]
  obtain ⟨hr, hp⟩ := (hmem r).1 (by simp)
  refine ⟨hr, hp, fun x hx hxp => ?_⟩
  obtain hx | hx := mem_append.1 ((hmem x).2 ⟨hx, hxp⟩)
  · exact .inr ((pairwise_append.1 (hinit ▸ h.filter p)).2.2 x hx r (mem_singleton_self r))
  · exact .inl (mem_singleton.1 hx)

theorem pairwise_first (h : l.Pairwise R) (hf : l.find? p = some r) : r ∈ l ∧ p r ∧ ∀ x ∈ l, p x → x = r ∨ R r x := by
  obtain ⟨hr, init, rest, rfl, hinit⟩ := find?_eq_some_iff_append.1 hf
  refine ⟨by simp, hr, fun x hx hxp => ?_⟩
  obtain hx | hx := mem_append.1 hx
  · exact absurd hxp (by simpa using hinit x hx)
  · obtain rfl | hx := mem_cons.1 hx
    · exact .inl rfl
    · exact .inr ((pairwise_cons.1 (pairwise_append.1 h).2.1).1 x hx)

end

/-- The starts and the lengths, in the order of the starts. -/
abbrev Ranges := List (Nat × Nat)

namespace Ranges

def Covers (m : Ranges) (b : Nat) : Prop := ∃ r ∈ m, r.1 ≤ b ∧ b < r.1 + r.2

/-- A new entry; an entry with the same key stays as it is. -/
def emplace (key length : Nat) : Ranges → Ranges
  | [] => [(key, length)]
  | r :: m => if key < r.1 then (key, length) :: r :: m else if key = r.1 then r :: m else r :: emplace key length m

def erase (key : Nat) (m : Ranges) : Ranges := m.filter (·.1 ≠ key)

def before (key : Nat) (m : Ranges) : Option (Nat × Nat) := (m.filter (·.1 < key)).getLast?

def after (key : Nat) (m : Ranges) : Option (Nat × Nat) := m.find? (key ≤ ·.1)

end Ranges

open Ranges

/-- The ranges are not empty and not adjacent. -/
structure Separated (m : Ranges) : Prop where
  nonempty : ∀ r ∈ m, 0 < r.2
  gap : m.Pairwise fun r r' => r.1 + r.2 < r'.1

variable {m m' : Ranges} {r x : Nat × Nat} {key length b : Nat}

theorem covers_cons : Covers (r :: m) b ↔ (r.1 ≤ b ∧ b < r.1 + r.2) ∨ Covers m b := by
  simp only [Covers, mem_cons, exists_eq_or_imp]

theorem mem_emplace (h : ∀ r ∈ m, r.1 ≠ key) : x ∈ emplace key length m ↔ x = (key, length) ∨ x ∈ m := by
  induction m with
  | nil => simp [emplace]
  | cons r m ih =>
    have hne : key ≠ r.1 := (h r (mem_cons_self ..)).symm
    specialize ih fun x hx => h x (mem_cons_of_mem _ hx)
    rw [emplace, if_neg hne]
    by_cases hlt : key < r.1
    · rw [if_pos hlt, mem_cons]
    · rw [if_neg hlt, mem_cons, ih, mem_cons]
      exact or_left_comm

theorem covers_emplace (h : ∀ r ∈ m, r.1 ≠ key) : Covers (emplace key length m) b ↔ (key ≤ b ∧ b < key + length) ∨ Covers m b := by
  simp only [Covers, mem_emplace h]
  constructor
  · rintro ⟨r, rfl | hr, hb⟩
    · exact .inl hb
    · exact .inr ⟨r, hr, hb⟩
  · rintro (hb | ⟨r, hr, hb⟩)
    · exact ⟨_, .inl rfl, hb⟩
    · exact ⟨r, .inr hr, hb⟩

namespace Separated

section

variable (h : Separated m)
include h

theorem cases (hr : r ∈ m) (hx : x ∈ m) : r = x ∨ r.1 + r.2 < x.1 ∨ x.1 + x.2 < r.1 := pairwise_cases h.gap hr hx

theorem eq_of_mem (hr : r ∈ m) (hx : x ∈ m) (hrb : r.1 ≤ b ∧ b < r.1 + r.2) (hxb : x.1 ≤ b ∧ b < x.1 + x.2) : r = x := by
  obtain heq | hlt | hlt := h.cases hr hx
  · exact heq
  · omega
  · omega

theorem emplace (hl : 0 < length) (hm : ∀ r ∈ m, r.1 + r.2 < key ∨ key + length < r.1) :
    Separated (emplace key length m) := by
  have hkey : ∀ r ∈ m, r.1 ≠ key := fun r hr heq => by have := hm r hr; have := h.nonempty r hr; omega
  refine ⟨fun x hx => ?_, ?_⟩
  · obtain rfl | hx := (mem_emplace hkey).1 hx
    · exact hl
    · exact h.nonempty x hx
  induction m with
  | nil => exact pairwise_singleton _ _
  | cons r m ih =>
    obtain ⟨hr, hgap⟩ := pairwise_cons.1 h.gap
    have hrm := hm r (mem_cons_self ..)
    have hpos := h.nonempty r (mem_cons_self ..)
    have hkey' : ∀ x ∈ m, x.1 ≠ key := fun x hx => hkey x (mem_cons_of_mem _ hx)
    rw [Ranges.emplace]
    by_cases hlt : key < r.1
    · rw [if_pos hlt]
      refine pairwise_cons.2 ⟨fun x hx => ?_, h.gap⟩
      obtain rfl | hx := mem_cons.1 hx
      · omega
      · have := hr x hx
        omega
    · rw [if_neg hlt, if_neg (hkey r (mem_cons_self ..)).symm]
      refine pairwise_cons.2 ⟨fun x hx => ?_, ih ⟨fun x hx => h.nonempty x (mem_cons_of_mem _ hx), hgap⟩
        (fun x hx => hm x (mem_cons_of_mem _ hx)) hkey'⟩
      obtain rfl | hx := (mem_emplace hkey').1 hx
      · omega
      · exact hr x hx

theorem erase (key : Nat) : Separated (Ranges.erase key m) :=
  ⟨fun r hr => h.nonempty r (mem_of_mem_filter hr), h.gap.filter _⟩

theorem mem_erase (hr : r ∈ m) : x ∈ Ranges.erase r.1 m ↔ x ∈ m ∧ x ≠ r := by
  rw [Ranges.erase, mem_filter, decide_eq_true_eq]
  refine and_congr_right fun hx => not_congr ⟨fun heq => ?_, fun heq => heq ▸ rfl⟩
  have hpos := h.nonempty r hr
  have hpos' := h.nonempty x hx
  exact h.eq_of_mem hx hr (b := r.1) (by omega) (by omega)

theorem covers_erase (hr : r ∈ m) : Covers (Ranges.erase r.1 m) b ↔ Covers m b ∧ ¬ (r.1 ≤ b ∧ b < r.1 + r.2) := by
  simp only [Covers, h.mem_erase hr]
  constructor
  · rintro ⟨x, ⟨hx, hne⟩, hb⟩
    exact ⟨⟨x, hx, hb⟩, fun hrb => hne (h.eq_of_mem hx hr hb hrb)⟩
  · rintro ⟨⟨x, hx, hb⟩, hrb⟩
    exact ⟨x, ⟨hx, fun heq => hrb (heq ▸ hb)⟩, hb⟩

theorem inside_iff {n : Nat} : (∀ r ∈ m, r.1 + r.2 ≤ n) ↔ ∀ b, Covers m b → b < n := by
  constructor
  · rintro hin b ⟨r, hr, -, hb⟩
    exact hb.trans_le (hin r hr)
  · intro hcov r hr
    have hpos := h.nonempty r hr
    have := hcov (r.1 + r.2 - 1) ⟨r, hr, by omega, by omega⟩
    omega

theorem before (hb : before key m = some r) : r ∈ m ∧ r.1 < key ∧ ∀ x ∈ m, x.1 < key → x = r ∨ x.1 + x.2 < r.1 := by
  simpa using pairwise_last h.gap hb

end

theorem before_none (hb : Ranges.before key m = none) (hx : x ∈ m) : key ≤ x.1 := by
  have := filter_eq_nil_iff.1 (getLast?_eq_none_iff.1 hb) x hx
  simpa using this

theorem after (h : Separated m) (ha : Ranges.after key m = some r) :
    r ∈ m ∧ key ≤ r.1 ∧ ∀ x ∈ m, key ≤ x.1 → x = r ∨ r.1 + r.2 < x.1 := by
  simpa using pairwise_first h.gap ha

theorem after_none (ha : Ranges.after key m = none) (hx : x ∈ m) : x.1 < key := by
  have := find?_eq_none.1 ha x hx
  simpa using this

/-- Adjacent addresses that are covered lie in one range, as two ranges are apart. -/
theorem within (h : Separated m) (start : Nat) {n : Nat} (hn : 0 < n) (hcov : ∀ k < n, Covers m (start + k)) :
    ∃ r ∈ m, r.1 ≤ start ∧ start + n ≤ r.1 + r.2 := by
  obtain ⟨r, hr, hle, hlt⟩ := hcov 0 hn
  refine ⟨r, hr, hle, ?_⟩
  have hstep : ∀ k, k < n → start + k < r.1 + r.2 := fun k => by
    induction k with
    | zero => exact fun _ => hlt
    | succ k ih =>
      intro hk
      obtain ⟨x, hx, hxle, hxlt⟩ := hcov (k + 1) hk
      obtain rfl | hgap | hgap := h.cases hr hx
      · exact hxlt
      · omega
      · omega
  have := hstep (n - 1) (by omega)
  omega

theorem ext (h : Separated m) (h' : Separated m') (hcov : ∀ b, Covers m b ↔ Covers m' b) : m = m' := by
  have hsub : ∀ {m m' : Ranges}, Separated m → Separated m' → (∀ b, Covers m b ↔ Covers m' b) → ∀ r ∈ m, r ∈ m' := by
    intro m m' h h' hcov r hr
    have hpos := h.nonempty r hr
    obtain ⟨x, hx, hxr⟩ := h'.within r.1 hpos fun k hk => (hcov _).1 ⟨r, hr, by omega, by omega⟩
    obtain ⟨y, hy, hyx⟩ := h.within x.1 (h'.nonempty x hx) fun k hk => (hcov _).2 ⟨x, hx, by omega, by omega⟩
    obtain rfl := h.eq_of_mem hr hy (b := r.1) (by omega) (by omega)
    have heq : x = r := Prod.ext (by omega) (by omega)
    exact heq ▸ hx
  have hsorted : ∀ {m : Ranges}, Separated m → m.Pairwise (·.1 < ·.1) := fun h => h.gap.imp fun hlt => by omega
  exact (hsorted h).eq_of_mem_iff (hsorted h') fun r => ⟨hsub h h' hcov r, hsub h' h (fun b => (hcov b).symm) r⟩

end Separated

end FlagCX.Lib
