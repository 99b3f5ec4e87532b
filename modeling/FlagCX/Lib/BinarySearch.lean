import Mathlib.Data.List.Perm.Basic
import Mathlib.Order.Nat
import Mathlib.Data.List.GetD

/-!
# Binary searches in a strictly sorted array

The array is the list of its keys. A window `[lo, hi)` is halved until it is empty; `fuel` bounds the rounds, and as many rounds as
the window has places are enough.

* `searchExact`      : the place of a key, `searchExact_eq_some`.
* `searchContaining` : the last key that is not larger, `searchContaining_eq_some`.
* `searchInsertion`  : the first key that is not smaller, `searchInsertion_spec`.
* `pairwise_insertIdx`, `pairwise_set` : edits that keep an array sorted.
-/

namespace FlagCX.Lib
open List

variable {keys : List Nat} {x i : Nat}

abbrev keyAt (keys : List Nat) (i : Nat) : Nat := keys.getD i 0

/-- The array is strictly sorted. -/
abbrev Increasing (keys : List Nat) : Prop := keys.Pairwise (· < ·)

theorem keyAt_eq (h : keys[i]? = some x) : keyAt keys i = x := by
  rw [keyAt, getD_eq_getElem?_getD, h]
  rfl

theorem getElem?_of_keyAt (h : keyAt keys i = x) (hi : i < keys.length) : keys[i]? = some x := by
  rw [← h, keyAt, getD_eq_getElem?_getD, getElem?_eq_getElem hi]
  rfl

theorem Increasing.keyAt_lt (h : Increasing keys) {j : Nat} (hij : i < j) (hj : j < keys.length) :
    keyAt keys i < keyAt keys j := by
  have hlt := pairwise_iff_getElem.1 h i j (hij.trans hj) hj hij
  rwa [keyAt, keyAt, getD_eq_getElem _ _ hj, getD_eq_getElem _ _ (hij.trans hj)]

theorem Increasing.keyAt_le (h : Increasing keys) {j : Nat} (hij : i ≤ j) (hj : j < keys.length) :
    keyAt keys i ≤ keyAt keys j := by
  rcases Nat.lt_or_eq_of_le hij with hij | rfl
  · exact (h.keyAt_lt hij hj).le
  · exact le_rfl

/-! ## A key -/

/-- The loop that looks for the key `x`. -/
def exactLoop (keys : List Nat) (x : Nat) : Nat → Nat → Nat → Option Nat
  | 0, _, _ => none
  | fuel + 1, lo, hi =>
    if lo < hi then
      let mid := lo + (hi - 1 - lo) / 2
      if keyAt keys mid = x then some mid
      else if keyAt keys mid < x then exactLoop keys x fuel (mid + 1) hi
      else exactLoop keys x fuel lo mid
    else none

/-- The place of the key `x`. -/
def searchExact (keys : List Nat) (x : Nat) : Option Nat := exactLoop keys x keys.length 0 keys.length

variable {fuel lo hi : Nat}

theorem exactLoop_sound (h : exactLoop keys x fuel lo hi = some i) : i < hi ∧ keyAt keys i = x := by
  induction fuel generalizing lo hi with
  | zero => cases h
  | succ fuel ih =>
    rw [exactLoop] at h
    dsimp only at h
    split_ifs at h with hlt heq hless
    · cases h
      exact ⟨by omega, heq⟩
    · exact ih h
    · obtain ⟨hi', hkey⟩ := ih h
      exact ⟨by omega, hkey⟩

theorem exactLoop_complete (hasc : Increasing keys) (hkey : keyAt keys i = x) (hlo : lo ≤ i) (hhi : i < hi)
    (hlen : hi ≤ keys.length) (hfuel : hi ≤ lo + fuel) : exactLoop keys x fuel lo hi = some i := by
  induction fuel generalizing lo hi with
  | zero => omega
  | succ fuel ih =>
    rw [exactLoop, if_pos (by omega)]
    -- the key in the middle says on which side of it the place is
    rcases lt_trichotomy (lo + (hi - 1 - lo) / 2) i with hmid | hmid | hmid
    · have hless := hasc.keyAt_lt hmid (by omega)
      rw [hkey] at hless
      rw [if_neg hless.ne, if_pos hless]
      exact ih (by omega) hhi hlen (by omega)
    · rw [hmid, if_pos hkey]
    · have hmore := hasc.keyAt_lt hmid (by omega)
      rw [hkey] at hmore
      rw [if_neg hmore.ne', if_neg hmore.not_gt]
      exact ih hlo hmid (by omega) (by omega)

theorem searchExact_eq_some (hasc : Increasing keys) : searchExact keys x = some i ↔ keys[i]? = some x := by
  constructor
  · intro h
    obtain ⟨hi, hkey⟩ := exactLoop_sound h
    exact getElem?_of_keyAt hkey hi
  · intro h
    have hi : i < keys.length := (List.getElem?_eq_some_iff.1 h).1
    exact exactLoop_complete hasc (keyAt_eq h) (Nat.zero_le i) hi (Nat.le_refl _) (by omega)

/-! ## The last key that is not larger -/

/-- The loop that looks for the last key that is not larger than `x`; `result` is the last such key met. -/
def containingLoop (keys : List Nat) (x : Nat) : Nat → Nat → Nat → Option Nat → Option Nat
  | 0, _, _, result => result
  | fuel + 1, lo, hi, result =>
    if lo < hi then
      let mid := lo + (hi - 1 - lo) / 2
      if keyAt keys mid ≤ x then containingLoop keys x fuel (mid + 1) hi (some mid)
      else containingLoop keys x fuel lo mid result
    else result

/-- The place of the last key that is not larger than `x`. -/
def searchContaining (keys : List Nat) (x : Nat) : Option Nat := containingLoop keys x keys.length 0 keys.length none

theorem containingLoop_spec (hasc : Increasing keys) {result : Option Nat} (hlohi : lo ≤ hi)
    (hlen : hi ≤ keys.length) (hfuel : hi ≤ lo + fuel) (hresult : result = if lo = 0 then none else some (lo - 1))
    (hsmall : ∀ j < lo, keyAt keys j ≤ x) (hlarge : ∀ j, hi ≤ j → j < keys.length → x < keyAt keys j) :
    ∃ n ≤ keys.length, containingLoop keys x fuel lo hi result = (if n = 0 then none else some (n - 1)) ∧
      (∀ j < n, keyAt keys j ≤ x) ∧ ∀ j, n ≤ j → j < keys.length → x < keyAt keys j := by
  induction fuel generalizing lo hi result with
  | zero =>
    obtain rfl : lo = hi := by omega
    exact ⟨lo, hlen, hresult, hsmall, hlarge⟩
  | succ fuel ih =>
    rw [containingLoop]
    by_cases hlt : lo < hi
    · dsimp only
      split_ifs with hle
      · refine ih (by omega) hlen (by omega) (by simp) (fun j hj => ?_) hlarge
        exact (hasc.keyAt_le (Nat.le_of_lt_succ hj) (by omega)).trans hle
      · refine ih (by omega) (by omega) (by omega) hresult hsmall fun j hj hjlen => ?_
        exact (not_le.1 hle).trans_le (hasc.keyAt_le hj hjlen)
    · rw [if_neg hlt]
      obtain rfl : lo = hi := by omega
      exact ⟨lo, hlen, hresult, hsmall, hlarge⟩

theorem searchContaining_spec (hasc : Increasing keys) (x : Nat) :
    ∃ n ≤ keys.length, searchContaining keys x = (if n = 0 then none else some (n - 1)) ∧
      (∀ j < n, keyAt keys j ≤ x) ∧ ∀ j, n ≤ j → j < keys.length → x < keyAt keys j :=
  containingLoop_spec hasc (Nat.zero_le _) (Nat.le_refl _) (by omega) (if_pos rfl).symm (fun j hj => by omega)
    fun j hj hjlen => by omega

theorem searchContaining_eq_some (hasc : Increasing keys) :
    searchContaining keys x = some i ↔
      i < keys.length ∧ keyAt keys i ≤ x ∧ ∀ j, i < j → j < keys.length → x < keyAt keys j := by
  obtain ⟨n, hn, heq, hsmall, hlarge⟩ := searchContaining_spec hasc x
  rw [heq]
  constructor
  · intro h
    split_ifs at h with hzero
    cases h
    exact ⟨by omega, hsmall _ (by omega), fun j hj hjlen => hlarge j (by omega) hjlen⟩
  · rintro ⟨hi, hle, hnext⟩
    have hlow : i < n := by
      by_contra hge
      exact absurd hle (hlarge i (by omega) hi).not_ge
    have hhigh : ¬ i < n - 1 := fun hlt => absurd (hsmall (n - 1) (by omega)) (hnext (n - 1) hlt (by omega)).not_ge
    rw [if_neg (by omega), show n - 1 = i by omega]

/-! ## The first key that is not smaller -/

/-- The loop that looks for the first key that is not smaller than `x`. -/
def insertionLoop (keys : List Nat) (x : Nat) : Nat → Nat → Nat → Nat
  | 0, lo, _ => lo
  | fuel + 1, lo, hi =>
    if lo < hi then
      let mid := lo + (hi - lo) / 2
      if keyAt keys mid < x then insertionLoop keys x fuel (mid + 1) hi
      else insertionLoop keys x fuel lo mid
    else lo

/-- The place of the first key that is not smaller than `x`. -/
def searchInsertion (keys : List Nat) (x : Nat) : Nat := insertionLoop keys x keys.length 0 keys.length

theorem insertionLoop_spec (hasc : Increasing keys) (hlohi : lo ≤ hi) (hlen : hi ≤ keys.length)
    (hfuel : hi ≤ lo + fuel) (hsmall : ∀ j < lo, keyAt keys j < x)
    (hlarge : ∀ j, hi ≤ j → j < keys.length → x ≤ keyAt keys j) :
    insertionLoop keys x fuel lo hi ≤ keys.length ∧ (∀ j < insertionLoop keys x fuel lo hi, keyAt keys j < x) ∧
      ∀ j, insertionLoop keys x fuel lo hi ≤ j → j < keys.length → x ≤ keyAt keys j := by
  induction fuel generalizing lo hi with
  | zero =>
    rw [insertionLoop]
    exact ⟨by omega, hsmall, fun j hj => hlarge j (by omega)⟩
  | succ fuel ih =>
    rw [insertionLoop]
    dsimp only
    split_ifs with hlt hless
    · refine ih (by omega) hlen (by omega) (fun j hj => ?_) hlarge
      exact (hasc.keyAt_le (Nat.le_of_lt_succ hj) (by omega)).trans_lt hless
    · refine ih (by omega) (by omega) (by omega) hsmall fun j hj hjlen => ?_
      exact (not_lt.1 hless).trans (hasc.keyAt_le hj hjlen)
    · exact ⟨by omega, hsmall, fun j hj => hlarge j (by omega)⟩

theorem searchInsertion_spec (hasc : Increasing keys) (x : Nat) :
    searchInsertion keys x ≤ keys.length ∧ (∀ j < searchInsertion keys x, keyAt keys j < x) ∧
      ∀ j, searchInsertion keys x ≤ j → j < keys.length → x ≤ keyAt keys j :=
  insertionLoop_spec hasc (Nat.zero_le _) (Nat.le_refl _) (by omega) (fun j hj => by omega) fun j hj hjlen => by omega

/-! ## Editing the array -/

section Edit
variable {β : Type} {R : β → β → Prop} {l : List β} {e : β} {p : Nat}

theorem pairwise_insertIdx (hl : l.Pairwise R) (hp : p ≤ l.length) (hbefore : ∀ a ∈ l.take p, R a e)
    (hafter : ∀ b ∈ l.drop p, R e b) : (l.insertIdx p e).Pairwise R := by
  induction l generalizing p with
  | nil =>
    obtain rfl : p = 0 := by simpa using hp
    exact pairwise_singleton R e
  | cons a l ih =>
    obtain ⟨hhead, htail⟩ := pairwise_cons.1 hl
    cases p with
    | zero => exact pairwise_cons.2 ⟨hafter, hl⟩
    | succ p =>
      rw [length_cons, Nat.succ_le_succ_iff] at hp
      constructor
      · intro b hb
        rcases (mem_insertIdx hp).1 hb with rfl | hb
        · exact hbefore a (by simp)
        · exact hhead b hb
      · exact ih htail hp (fun b hb => hbefore b (by simp [hb])) fun b hb => hafter b (by simpa using hb)

theorem pairwise_set {a : β} (hl : l.Pairwise R) (ha : l[p]? = some a) (hleft : ∀ b, R a b → R e b)
    (hright : ∀ b, R b a → R b e) : (l.set p e).Pairwise R := by
  induction l generalizing p with
  | nil => cases ha
  | cons c l ih =>
    obtain ⟨hhead, htail⟩ := pairwise_cons.1 hl
    cases p with
    | zero =>
      obtain rfl : c = a := by simpa using ha
      exact pairwise_cons.2 ⟨fun b hb => hleft b (hhead b hb), htail⟩
    | succ p =>
      constructor
      · intro b hb
        rcases mem_or_eq_of_mem_set hb with hb | rfl
        · exact hhead b hb
        · exact hright c (hhead a (mem_of_getElem? ha))
      · exact ih htail ha

end Edit

end FlagCX.Lib
