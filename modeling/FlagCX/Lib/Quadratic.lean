import Mathlib.Data.List.Perm.Subperm
import Mathlib.Data.List.ProdSigma
import Mathlib.Data.List.Nodup
import Mathlib.Tactic.Ring
import Mathlib.Data.Nat.Prime.Basic

/-!
# Quadratic schedules

Parties pair up in rounds: in the round of offset `d`, party `a` of `n` sends to `a + d` and receives from `a - d`. The
offsets are the triangular numbers modulo a power of two, less those that are too large.

* `tri_mod_inj`     : triangular numbers below a power of two are different modulo it.
* `offsets_perm`    : the offsets are all numbers below `n`, each once.
* `rotate_eq_iff`   : `a` sends to `b` in the round in which `b` receives from `a`.
* `Numbering`       : a numbering of parties by group and place; `Numbering.rounds` the rounds of one party, by the
  offsets of both levels.
-/

namespace FlagCX.Lib
open List

/-! ## Triangular numbers -/

def tri : Nat → Nat
  | 0 => 0
  | n + 1 => tri n + (n + 1)

theorem two_mul_tri (n : Nat) : 2 * tri n = n * (n + 1) := by
  induction n with
  | zero => rfl
  | succ n ih =>
    rw [tri, mul_add, ih]
    ring

variable {k b : Nat}

theorem dvd_of_odd_mul {a : Nat} (h : 2 ^ k ∣ a * b) (hb : b % 2 = 1) : 2 ^ k ∣ a := by
  have hodd : Nat.Coprime 2 b := Nat.coprime_two_left.2 (Nat.odd_iff.2 hb)
  exact (hodd.pow_left k).dvd_of_dvd_mul_right h

theorem tri_mod_le {i j : Nat} (hj : j < 2 ^ k) (hle : i ≤ j) (h : tri i % 2 ^ k = tri j % 2 ^ k) : i = j := by
  obtain ⟨d, rfl⟩ := Nat.exists_eq_add_of_le hle
  have hdvd : 2 ^ (k + 1) ∣ d * (2 * i + d + 1) := by
    have h1 : 2 ^ k ∣ tri (i + d) - tri i := Nat.dvd_of_mod_eq_zero (Nat.sub_mod_eq_zero_of_mod_eq h.symm)
    have h2 : 2 * (tri (i + d) - tri i) = d * (2 * i + d + 1) := by
      rw [Nat.mul_sub, two_mul_tri, two_mul_tri]
      have : (i + d) * (i + d + 1) = i * (i + 1) + d * (2 * i + d + 1) := by ring
      omega
    rw [← h2, pow_succ, mul_comm]
    exact Nat.mul_dvd_mul_left 2 h1
  -- exactly one of the factors is odd
  by_contra hne
  have hd : 0 < d := by omega
  by_cases hpar : d % 2 = 1
  · rw [Nat.mul_comm] at hdvd
    have := Nat.le_of_dvd (by omega) (dvd_of_odd_mul hdvd hpar)
    omega
  · have := Nat.le_of_dvd hd (dvd_of_odd_mul hdvd (by omega))
    omega

theorem tri_mod_inj {i j : Nat} (hi : i < 2 ^ k) (hj : j < 2 ^ k) (h : tri i % 2 ^ k = tri j % 2 ^ k) : i = j := by
  rcases le_total i j with hle | hle
  · exact tri_mod_le hj hle h
  · exact (tri_mod_le hi hle h.symm).symm

/-- The quadratic offsets below `n`, in the order in which they come. -/
def offsets (k n : Nat) : List Nat := ((range (2 ^ k)).map fun i => tri i % 2 ^ k).filter fun d => d < n

theorem tri_mod_perm (k : Nat) : ((range (2 ^ k)).map fun i => tri i % 2 ^ k).Perm (range (2 ^ k)) := by
  have hnodup : ((range (2 ^ k)).map fun i => tri i % 2 ^ k).Nodup := by
    refine List.Nodup.map_on (fun i hi j hj h => ?_) nodup_range
    exact tri_mod_inj (mem_range.1 hi) (mem_range.1 hj) h
  have hsub : ((range (2 ^ k)).map fun i => tri i % 2 ^ k) ⊆ range (2 ^ k) := by
    intro d hd
    obtain ⟨i, -, rfl⟩ := mem_map.1 hd
    exact mem_range.2 (Nat.mod_lt _ (Nat.two_pow_pos k))
  refine (subperm_of_subset hnodup hsub).perm_of_length_le ?_
  rw [length_map]

variable {n : Nat}

theorem offsets_perm (h : n ≤ 2 ^ k) : (offsets k n).Perm (range n) := by
  refine ((tri_mod_perm k).filter _).trans (List.Perm.of_eq ?_)
  obtain ⟨d, hd⟩ := Nat.exists_eq_add_of_le h
  rw [hd, range_add, filter_append, filter_eq_self.2, filter_eq_nil_iff.2, append_nil]
  · intro x hx
    obtain ⟨y, -, rfl⟩ := mem_map.1 hx
    simp
  · intro x hx
    simpa using hx

theorem offsets_head (k : Nat) (h : 0 < n) : (offsets k n).head? = some 0 := by
  obtain ⟨m, hm⟩ := Nat.exists_eq_add_of_lt (Nat.two_pow_pos k)
  rw [offsets, hm, zero_add, range_succ_eq_map, map_cons, filter_cons_of_pos]
  · simp [tri]
  · exact decide_eq_true h

/-! ## Rotations -/

theorem mod_of_lt_two_mul {x : Nat} (h : x < 2 * n) : x % n = if x < n then x else x - n := by
  split_ifs with hx
  · exact Nat.mod_eq_of_lt hx
  · rw [Nat.mod_eq_sub_mod (by omega), Nat.mod_eq_of_lt (by omega)]

theorem rotate_eq_iff {a d : Nat} (ha : a < n) (hb : b < n) (hd : d < n) : (a + d) % n = b ↔ (b + n - d) % n = a := by
  rw [mod_of_lt_two_mul (by omega), mod_of_lt_two_mul (by omega)]
  split_ifs <;> omega

theorem exists_rotate {a : Nat} (ha : a < n) (hb : b < n) : ∃ d < n, (a + d) % n = b := by
  refine ⟨(b + n - a) % n, Nat.mod_lt _ (by omega), ?_⟩
  rw [Nat.add_mod_mod, show a + (b + n - a) = b + n by omega, Nat.add_mod_right, Nat.mod_eq_of_lt hb]

theorem rotate_inj {a d d' : Nat} (ha : a < n) (hd : d < n) (hd' : d' < n) (h : (a + d) % n = (a + d') % n) : d = d' := by
  rw [mod_of_lt_two_mul (by omega), mod_of_lt_two_mul (by omega)] at h
  split_ifs at h <;> omega

/-! ## Two levels -/

/-- `total` parties, numbered by group and by place in the group. -/
structure Numbering (total groups places : Nat) where
  party : Nat → Nat → Nat
  group : Nat → Nat
  place : Nat → Nat
  group_lt : ∀ a < total, group a < groups
  place_lt : ∀ a < total, place a < places
  party_lt : ∀ g < groups, ∀ l < places, party g l < total
  party_group_place : ∀ a < total, party (group a) (place a) = a
  group_party : ∀ g < groups, ∀ l < places, group (party g l) = g
  place_party : ∀ g < groups, ∀ l < places, place (party g l) = l

namespace Numbering
variable {total groups places : Nat} (s : Numbering total groups places)

/-- The party that `a` sends to in the round with these offsets. -/
def sendTo (a : Nat) (d : Nat × Nat) : Nat := s.party ((s.group a + d.1) % groups) ((s.place a + d.2) % places)

/-- The party that `a` receives from in the round with these offsets. -/
def recvFrom (a : Nat) (d : Nat × Nat) : Nat :=
  s.party ((s.group a + groups - d.1) % groups) ((s.place a + places - d.2) % places)

variable {s}

variable {d : Nat × Nat}

/-- **The rounds match.** -/
theorem sendTo_eq_iff {a : Nat} (ha : a < total) (hb : b < total) (hd : d.1 < groups)
    (hd' : d.2 < places) : s.sendTo a d = b ↔ s.recvFrom b d = a := by
  have hparty : ∀ {g l x}, g < groups → l < places → x < total → (s.party g l = x ↔ g = s.group x ∧ l = s.place x) := by
    intro g l x hg hl hx
    constructor
    · rintro rfl
      exact ⟨(s.group_party g hg l hl).symm, (s.place_party g hg l hl).symm⟩
    · rintro ⟨rfl, rfl⟩
      exact s.party_group_place x hx
  have hg : 0 < groups := Nat.zero_lt_of_lt hd
  have hl : 0 < places := Nat.zero_lt_of_lt hd'
  unfold sendTo recvFrom
  rw [hparty (Nat.mod_lt _ hg) (Nat.mod_lt _ hl) hb, hparty (Nat.mod_lt _ hg) (Nat.mod_lt _ hl) ha,
    rotate_eq_iff (s.group_lt a ha) (s.group_lt b hb) hd, rotate_eq_iff (s.place_lt a ha) (s.place_lt b hb) hd']

theorem sendTo_inj {a : Nat} (ha : a < total) {d' : Nat × Nat} (h1 : d.1 < groups) (h2 : d.2 < places)
    (h1' : d'.1 < groups) (h2' : d'.2 < places) (h : s.sendTo a d = s.sendTo a d') : d = d' := by
  have hg : 0 < groups := Nat.zero_lt_of_lt h1
  have hl : 0 < places := Nat.zero_lt_of_lt h2
  have hgroup := congrArg s.group h
  have hplace := congrArg s.place h
  unfold sendTo at hgroup hplace
  rw [s.group_party _ (Nat.mod_lt _ hg) _ (Nat.mod_lt _ hl), s.group_party _ (Nat.mod_lt _ hg) _ (Nat.mod_lt _ hl)] at hgroup
  rw [s.place_party _ (Nat.mod_lt _ hg) _ (Nat.mod_lt _ hl), s.place_party _ (Nat.mod_lt _ hg) _ (Nat.mod_lt _ hl)] at hplace
  exact Prod.ext (rotate_inj (s.group_lt a ha) h1 h1' hgroup) (rotate_inj (s.place_lt a ha) h2 h2' hplace)

theorem exists_sendTo {a : Nat} (ha : a < total) (hb : b < total) :
    ∃ d : Nat × Nat, d.1 < groups ∧ d.2 < places ∧ s.sendTo a d = b := by
  obtain ⟨g, hg, hgb⟩ := exists_rotate (s.group_lt a ha) (s.group_lt b hb)
  obtain ⟨l, hl, hlb⟩ := exists_rotate (s.place_lt a ha) (s.place_lt b hb)
  refine ⟨(g, l), hg, hl, ?_⟩
  unfold sendTo
  rw [hgb, hlb, s.party_group_place b hb]

section Rounds
variable {ds : List (Nat × Nat)} {a : Nat}

theorem sendTo_lt (ha : a < total) (d : Nat × Nat) : s.sendTo a d < total :=
  s.party_lt _ (Nat.mod_lt _ (Nat.zero_lt_of_lt (s.group_lt a ha))) _ (Nat.mod_lt _ (Nat.zero_lt_of_lt (s.place_lt a ha)))

theorem recvFrom_lt (ha : a < total) (d : Nat × Nat) : s.recvFrom a d < total :=
  s.party_lt _ (Nat.mod_lt _ (Nat.zero_lt_of_lt (s.group_lt a ha))) _ (Nat.mod_lt _ (Nat.zero_lt_of_lt (s.place_lt a ha)))

theorem mem_product_perm {gs ls : List Nat} (hgs : gs.Perm (range groups)) (hls : ls.Perm (range places)) : d ∈ gs ×ˢ ls ↔ d.1 < groups ∧ d.2 < places := by
  rw [mem_product, hgs.mem_iff, hls.mem_iff, mem_range, mem_range]

variable {gs ls : List Nat} (hgs : gs.Perm (range groups)) (hls : ls.Perm (range places))
include hgs hls

theorem product_nodup : (gs ×ˢ ls).Nodup := (hgs.nodup_iff.2 nodup_range).product (hls.nodup_iff.2 nodup_range)

theorem sends_perm (ha : a < total) : ((gs ×ˢ ls).map (s.sendTo a)).Perm (range total) := by
  have hmem := fun d => mem_product_perm (d := d) hgs hls
  rw [perm_ext_iff_of_nodup ?_ nodup_range]
  · intro b
    rw [mem_map, mem_range]
    constructor
    · rintro ⟨d, -, rfl⟩
      exact sendTo_lt ha d
    · intro hb
      obtain ⟨d, h1, h2, h⟩ := exists_sendTo (s := s) ha hb
      exact ⟨d, (hmem d).2 ⟨h1, h2⟩, h⟩
  · refine List.Nodup.map_on (fun d hd d' hd' h => ?_) (product_nodup hgs hls)
    obtain ⟨h1, h2⟩ := (hmem d).1 hd
    obtain ⟨h1', h2'⟩ := (hmem d').1 hd'
    exact sendTo_inj ha h1 h2 h1' h2' h

theorem recvs_perm (ha : a < total) : ((gs ×ˢ ls).map (s.recvFrom a)).Perm (range total) := by
  have hmem := fun d => mem_product_perm (d := d) hgs hls
  rw [perm_ext_iff_of_nodup ?_ nodup_range]
  · intro b
    rw [mem_map, mem_range]
    constructor
    · rintro ⟨d, -, rfl⟩
      exact recvFrom_lt ha d
    · intro hb
      obtain ⟨d, h1, h2, h⟩ := exists_sendTo (s := s) hb ha
      exact ⟨d, (hmem d).2 ⟨h1, h2⟩, (sendTo_eq_iff hb ha h1 h2).1 h⟩
  · refine List.Nodup.map_on (fun d hd d' hd' h => ?_) (product_nodup hgs hls)
    obtain ⟨h1, h2⟩ := (hmem d).1 hd
    obtain ⟨h1', h2'⟩ := (hmem d').1 hd'
    -- the party that `a` receives from sends to `a` in both rounds
    have hb := recvFrom_lt (s := s) ha d
    have hsend := (sendTo_eq_iff hb ha h1 h2).2 rfl
    have hsend' := (sendTo_eq_iff hb ha h1' h2').2 h.symm
    exact sendTo_inj hb h1 h2 h1' h2' (hsend.trans hsend'.symm)

end Rounds

end Numbering

end FlagCX.Lib
