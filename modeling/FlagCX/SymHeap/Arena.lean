import Mathlib.Order.Bounds.Basic
import FlagCX.Lib.Ranges
import FlagCX.Result

/-!
# The offset allocator of the LSA arena (`sym_heap.cc`)

* `findOffset`, `markOffset`, `releaseOffset` : the functions of the source on the map of free ranges.
* `Call`, `step`, `run` : allocations and releases in any order, with the spans that are owned by no release yet.
* `Sound`       : the free ranges are separated, and are what the owned spans leave of the arena.
* `releaseAll_fresh` : releasing all owned spans, in any order, gives back the arena that the runs begin with.

The null-pointer checks are left out. A call whose `std::map` cannot allocate is given as `outOfMemory`; the functions
work on a copy of the map, so that it does not matter where the allocation fails. Ranges end inside `rankStride`, which
is a `size_t`: the sums of the source do not wrap where its own comparisons have passed.
-/

namespace FlagCX.SymHeap
open Lib Ranges List

/-- `std::numeric_limits<size_t>::max()`. -/
def sizeMax : Nat := 2 ^ 64 - 1

/-- The allocator's part of `flagcxSymLsaArena`. -/
structure Arena where
  rankStride : Nat
  freeRanges : Ranges
  deriving DecidableEq, Repr

/-! ## The functions -/

/-- The first multiple of the alignment from `start` on. -/
def alignUp (start alignment : Nat) : Nat := (start + alignment - 1) / alignment * alignment

/-- The loop of `flagcxSymLsaFindOffset`. -/
def findLoop (rankStride span alignment : Nat) : Ranges → Except Result Nat
  | [] => .error .notSupported
  | (start, length) :: rest =>
    if start > rankStride ∨ length > rankStride - start ∨ start > sizeMax - (alignment - 1) then .error .internalError
    else if alignUp start alignment ≥ start ∧ alignUp start alignment - start ≤ length ∧
        span ≤ length - (alignUp start alignment - start) then .ok (alignUp start alignment)
    else findLoop rankStride span alignment rest

/-- `flagcxSymLsaFindOffset`. -/
def findOffset (arena : Arena) (span alignment : Nat) : Except Result Nat :=
  if span = 0 ∨ alignment = 0 ∨ span > arena.rankStride then .error .invalidArgument
  else findLoop arena.rankStride span alignment arena.freeRanges

/-- The part of a range that is left on one side, if there is one. -/
def putBack (start length : Nat) (next : Ranges) : Ranges := if 0 < length then next.emplace start length else next

/-- `flagcxSymLsaMarkOffset`. -/
def markOffset (arena : Arena) (offset span : Nat) (outOfMemory : Bool) : Result × Arena :=
  if span = 0 ∨ offset > arena.rankStride ∨ span > arena.rankStride - offset then (.invalidArgument, arena)
  else if outOfMemory then (.systemError, arena)
  else match before (offset + 1) arena.freeRanges with  -- `--upper_bound(offset)`
    | none => (.invalidUsage, arena)
    | some (start, length) =>
      if offset < start ∨ offset > start + length ∨ span > start + length - offset then (.invalidUsage, arena)
      else
        let next := putBack start (offset - start) (arena.freeRanges.erase start)
        (.success, { arena with freeRanges := putBack (offset + span) (start + length - offset - span) next })

/-- The start of the released range, joined with the free range that ends there. -/
def joinBefore (offset : Nat) (next : Ranges) : Option (Nat × Ranges) :=
  match before offset next with
  | none => some (offset, next)
  | some (start, length) =>
    if start + length > offset then none
    else if start + length = offset then some (start, next.erase start)
    else some (offset, next)

/-- The end of the released range, joined with the free range that starts there. -/
def joinAfter (offset last : Nat) (next : Ranges) : Option (Nat × Ranges) :=
  match Ranges.after offset next with
  | none => some (last, next)
  | some (start, length) =>
    if start < last then none
    else if start = last then some (last + length, next.erase start)
    else some (last, next)

/-- `flagcxSymLsaReleaseOffset`. -/
def releaseOffset (arena : Arena) (offset span : Nat) (outOfMemory : Bool) : Result × Arena :=
  if span = 0 ∨ offset > arena.rankStride ∨ span > arena.rankStride - offset then (.invalidArgument, arena)
  else if outOfMemory then (.systemError, arena)
  else match joinBefore offset arena.freeRanges with
    | none => (.invalidUsage, arena)
    | some (start, next) =>
      match joinAfter offset (offset + span) next with
      | none => (.invalidUsage, arena)
      | some (last, next) => (.success, { arena with freeRanges := next.emplace start (last - start) })

/-! ## Runs of calls -/

/-- An allocation (`flagcxSymLsaFindOffset`, then `flagcxSymLsaMarkOffset`), or a release. -/
inductive Call where
  | allocate (span alignment : Nat) (outOfMemory : Bool)
  | release (offset span : Nat) (outOfMemory : Bool)
  deriving DecidableEq, Repr

/-- The arena, and the spans that were allocated and not released. -/
structure Heap where
  arena : Arena
  owned : List (Nat × Nat)
  deriving DecidableEq, Repr

/-- What is left of an owned span after the release of `[offset, offset + span)`: nothing if it is that span. -/
def cut (offset span : Nat) (s : Nat × Nat) : List (Nat × Nat) :=
  [(s.1, min (s.1 + s.2) offset - s.1), (max s.1 (offset + span), s.1 + s.2 - max s.1 (offset + span))].filter (0 < ·.2)

/-- The result of a call; the owned spans change if it succeeds. -/
def settle (h : Heap) (x : Result × Arena) (owned : List (Nat × Nat)) : Result × Heap :=
  (x.1, ⟨x.2, if x.1 = .success then owned else h.owned⟩)

def step (h : Heap) : Call → Result × Heap
  | .allocate span alignment outOfMemory =>
    match findOffset h.arena span alignment with
    | .error result => (result, h)
    | .ok offset => settle h (markOffset h.arena offset span outOfMemory) ((offset, span) :: h.owned)
  | .release offset span outOfMemory =>
    settle h (releaseOffset h.arena offset span outOfMemory) (h.owned.flatMap (cut offset span))

def run (h : Heap) (calls : List Call) : Heap := calls.foldl (fun h call => (step h call).2) h

/-- The arena with the single free range `[0, rankStride)`. -/
def fresh (rankStride : Nat) : Heap := ⟨⟨rankStride, [(0, rankStride)]⟩, []⟩

/-- No address lies in both spans. -/
def Disjoint (s s' : Nat × Nat) : Prop := s.1 + s.2 ≤ s'.1 ∨ s'.1 + s'.2 ≤ s.1

/-- The free ranges are separated, and are what the owned spans leave of `[0, rankStride)`. -/
structure Sound (h : Heap) : Prop where
  separated : Separated h.arena.freeRanges
  inside : ∀ r ∈ h.arena.freeRanges, r.1 + r.2 ≤ h.arena.rankStride
  complement : ∀ b < h.arena.rankStride, Covers h.arena.freeRanges b ↔ ¬ Covers h.owned b
  owned_inside : ∀ s ∈ h.owned, 0 < s.2 ∧ s.1 + s.2 ≤ h.arena.rankStride
  owned_disjoint : h.owned.Pairwise Disjoint

/-- The span is free, and starts at a multiple of the alignment. -/
def Fits (arena : Arena) (span alignment offset : Nat) : Prop :=
  alignment ∣ offset ∧ ∀ k < span, Covers arena.freeRanges (offset + k)

/-! ## `flagcxSymLsaFindOffset` -/

section Find
variable {arena : Arena} {rankStride span alignment start offset : Nat} {m : Ranges}

theorem dvd_alignUp : alignment ∣ alignUp start alignment := ⟨(start + alignment - 1) / alignment, Nat.mul_comm ..⟩

theorem le_alignUp (h : 0 < alignment) : start ≤ alignUp start alignment := by
  have hdiv := Nat.div_add_mod (start + alignment - 1) alignment
  have hmod := Nat.mod_lt (start + alignment - 1) h
  rw [alignUp, Nat.mul_comm]
  omega

theorem alignUp_le (h : 0 < alignment) (hdvd : alignment ∣ offset) (hle : start ≤ offset) : alignUp start alignment ≤ offset := by
  obtain ⟨q, rfl⟩ := hdvd
  rw [alignUp, Nat.mul_comm]
  refine Nat.mul_le_mul_left _ (Nat.lt_succ_iff.1 ((Nat.div_lt_iff_lt_mul h).2 ?_))
  rw [Nat.succ_mul, Nat.mul_comm q]
  omega

theorem findLoop_eq_ok (hspan : 0 < span) (hal : 0 < alignment) (hm : Separated m) (hin : ∀ r ∈ m, r.1 + r.2 ≤ rankStride)
    (hfit : ∀ r ∈ m, r.1 ≤ sizeMax - (alignment - 1)) :
    findLoop rankStride span alignment m = .ok offset ↔
      IsLeast {x | alignment ∣ x ∧ ∃ r ∈ m, r.1 ≤ x ∧ x + span ≤ r.1 + r.2} offset := by
  induction m with
  | nil => simp [findLoop, IsLeast]
  | cons r m ih =>
    obtain ⟨start, length⟩ := r
    obtain ⟨hgap, hgaps⟩ := pairwise_cons.1 hm.gap
    have hr := hin _ (mem_cons_self ..)
    have hfr := hfit _ (mem_cons_self ..)
    have hle : start ≤ alignUp start alignment := le_alignUp hal
    specialize ih ⟨fun x hx => hm.nonempty x (mem_cons_of_mem _ hx), hgaps⟩ (fun x hx => hin x (mem_cons_of_mem _ hx))
      (fun x hx => hfit x (mem_cons_of_mem _ hx))
    rw [findLoop, if_neg (by omega)]
    -- The room in this range is from its first multiple on; the ranges after it lie higher.
    by_cases hroom : alignUp start alignment + span ≤ start + length
    · rw [if_pos (by omega), Except.ok.injEq]
      have hleast : IsLeast {x | alignment ∣ x ∧ ∃ r ∈ (start, length) :: m, r.1 ≤ x ∧ x + span ≤ r.1 + r.2} (alignUp start alignment) := by
        refine ⟨⟨dvd_alignUp, _, mem_cons_self .., hle, hroom⟩, fun x hx => ?_⟩
        obtain ⟨hdvd, r, hr, hrx, -⟩ := hx
        obtain rfl | hr := mem_cons.1 hr
        · exact alignUp_le hal hdvd hrx
        · have := hgap r hr
          omega
      exact ⟨fun h => h ▸ hleast, fun h => hleast.unique h⟩
    · rw [if_neg (by omega), ih]
      refine iff_of_eq (congrArg (IsLeast · offset) (Set.ext fun x => and_congr_right fun hdvd => ?_))
      refine ⟨fun ⟨r, hr, h⟩ => ⟨r, mem_cons_of_mem _ hr, h⟩, fun ⟨r, hr, hrx, hx⟩ => ?_⟩
      obtain rfl | hr := mem_cons.1 hr
      · have hup : alignUp start alignment ≤ x := alignUp_le hal hdvd hrx
        omega
      · exact ⟨r, hr, hrx, hx⟩

theorem fits_iff (hspan : 0 < span) (hm : Separated arena.freeRanges) :
    Fits arena span alignment offset ↔ alignment ∣ offset ∧ ∃ r ∈ arena.freeRanges, r.1 ≤ offset ∧ offset + span ≤ r.1 + r.2 := by
  refine and_congr_right fun _ => ⟨hm.within _ hspan, ?_⟩
  rintro ⟨r, hr, hle, hlt⟩ k hk
  exact ⟨r, hr, by omega, by omega⟩

theorem findOffset_eq_ok (hspan : 0 < span) (hal : 0 < alignment) (hm : Separated arena.freeRanges)
    (hin : ∀ r ∈ arena.freeRanges, r.1 + r.2 ≤ arena.rankStride)
    (hfit : ∀ r ∈ arena.freeRanges, r.1 ≤ sizeMax - (alignment - 1)) :
    findOffset arena span alignment = .ok offset ↔ IsLeast {x | Fits arena span alignment x} offset := by
  simp only [fits_iff hspan hm]
  rw [findOffset]
  by_cases hbig : span > arena.rankStride
  · rw [if_pos (.inr (.inr hbig))]
    refine iff_of_false (by simp) fun h => ?_
    obtain ⟨-, r, hr, -, hle⟩ := h.1
    have := hin r hr
    omega
  · rw [if_neg (by omega)]
    exact findLoop_eq_ok hspan hal hm hin hfit

end Find

/-! ## `flagcxSymLsaMarkOffset` -/

section Mark
variable {arena : Arena} {start length offset span b : Nat} {m : Ranges} {outOfMemory : Bool}

theorem mem_putBack {x : Nat × Nat} (h : ∀ r ∈ m, r.1 ≠ start) (hx : x ∈ putBack start length m) : x = (start, length) ∨ x ∈ m := by
  rw [putBack] at hx
  split at hx
  · exact (mem_emplace h).1 hx
  · exact .inr hx

theorem putBack_spec (start length : Nat) (h : Separated m) (hgap : ∀ r ∈ m, r.1 + r.2 < start ∨ start + length < r.1) :
    Separated (putBack start length m) ∧ ∀ b, Covers (putBack start length m) b ↔ (start ≤ b ∧ b < start + length) ∨ Covers m b := by
  have hkey : ∀ r ∈ m, r.1 ≠ start := fun r hr heq => by have := hgap r hr; omega
  rw [putBack]
  by_cases hpos : 0 < length
  · rw [if_pos hpos]
    exact ⟨h.emplace hpos hgap, fun b => covers_emplace hkey⟩
  · rw [if_neg hpos]
    exact ⟨h, fun b => ⟨.inr, fun hb => hb.resolve_left (by omega)⟩⟩

/-- A call that fails changes nothing; one that succeeds takes the span, which was free, out of the free ranges. -/
theorem markOffset_spec (hm : Separated arena.freeRanges) :
    ∀ x, markOffset arena offset span outOfMemory = x → (x.1 ≠ .success → x.2 = arena) ∧ (x.1 = .success →
      x.2.rankStride = arena.rankStride ∧
      0 < span ∧ offset + span ≤ arena.rankStride ∧ (∀ k < span, Covers arena.freeRanges (offset + k)) ∧
      Separated x.2.freeRanges ∧
      ∀ b, Covers x.2.freeRanges b ↔ Covers arena.freeRanges b ∧ ¬ (offset ≤ b ∧ b < offset + span)) := by
  rintro x rfl
  rw [markOffset]
  by_cases hargs : span = 0 ∨ offset > arena.rankStride ∨ span > arena.rankStride - offset
  · simp [hargs]
  rw [if_neg hargs]
  by_cases hoom : outOfMemory
  · simp [hoom]
  rw [if_neg hoom]
  obtain hnone | ⟨r, hr⟩ := (before (offset + 1) arena.freeRanges).eq_none_or_eq_some
  · simp [hnone]
  obtain ⟨start, length⟩ := r
  rw [hr]
  simp only
  by_cases hroom : offset < start ∨ offset > start + length ∨ span > start + length - offset
  · simp [hroom]
  rw [if_neg hroom]
  obtain ⟨hmem, hstart, -⟩ := hm.before hr
  refine ⟨fun h => absurd rfl h, fun _ => ⟨rfl, by omega, by omega, fun k hk => ⟨_, hmem, by omega, ?_⟩, ?_⟩⟩
  · omega
  -- the other ranges lie before the start or after the end of the one that is split
  have hgap : ∀ r ∈ arena.freeRanges.erase start, r.1 + r.2 < start ∨ start + length < r.1 := fun r hr => by
    obtain ⟨hr, hne⟩ := (hm.mem_erase hmem).1 hr
    obtain heq | hlt | hlt := hm.cases hmem hr
    · exact absurd heq.symm hne
    · exact .inr hlt
    · exact .inl hlt
  have hkey : ∀ r ∈ arena.freeRanges.erase start, r.1 ≠ start := fun r hr heq => by have := hgap r hr; omega
  obtain ⟨hleft, hcleft⟩ := putBack_spec start (offset - start) (hm.erase start) fun r hr => by have := hgap r hr; omega
  obtain ⟨hright, hcright⟩ := putBack_spec (offset + span) (start + length - offset - span) hleft fun r hr => by
      obtain rfl | hr := mem_putBack hkey hr
      · omega
      · have := hgap r hr
        omega
  refine ⟨hright, fun b => ?_⟩
  have hcover : start ≤ b ∧ b < start + length → Covers arena.freeRanges b := fun hb => ⟨_, hmem, hb⟩
  have hparts : (offset + span ≤ b ∧ b < offset + span + (start + length - offset - span)) ∨ (start ≤ b ∧ b < start + (offset - start)) ↔
      (start ≤ b ∧ b < start + length) ∧ ¬ (offset ≤ b ∧ b < offset + span) := by omega
  rw [hcright, hcleft, hm.covers_erase hmem, ← or_assoc, hparts]
  by_cases hb : start ≤ b ∧ b < start + length
  · simp only [hb, hcover hb, true_and, not_true_eq_false, or_false]
  · have hspan : ¬ (offset ≤ b ∧ b < offset + span) := by omega
    simp only [hb, hspan, not_false_eq_true, and_true, false_or]

end Mark

/-! ## `flagcxSymLsaReleaseOffset` -/

section Release
variable {arena : Arena} {start last offset span : Nat} {m next : Ranges} {outOfMemory : Bool}

theorem joinBefore_spec (hm : Separated m) (h : joinBefore offset m = some (start, next)) :
    start ≤ offset ∧ Separated next ∧ (∀ b, Covers m b ↔ Covers next b ∨ (start ≤ b ∧ b < offset)) ∧
      ∀ r ∈ next, r ∈ m ∧ (r.1 < offset → r.1 + r.2 < start) := by
  rw [joinBefore] at h
  obtain hnone | ⟨r, hr⟩ := (before offset m).eq_none_or_eq_some
  · simp only [hnone, Option.some.injEq, Prod.mk.injEq] at h
    obtain ⟨rfl, rfl⟩ := h
    exact ⟨le_rfl, hm, fun b => (or_iff_left (by omega)).symm, fun r hr => ⟨hr, fun hlt => absurd hlt (not_lt.2 (Separated.before_none hnone hr))⟩⟩
  simp only [hr] at h
  obtain ⟨hmem, hlt, hlast⟩ := hm.before hr
  split at h
  · cases h
  split at h <;> simp only [Option.some.injEq, Prod.mk.injEq] at h
  · obtain ⟨rfl, rfl⟩ := h
    refine ⟨hlt.le, hm.erase _, fun b => ?_, fun x hx => ?_⟩
    · rw [hm.covers_erase hmem]
      rw [show offset = r.1 + r.2 from Eq.symm (by assumption)]
      by_cases hb : r.1 ≤ b ∧ b < r.1 + r.2
      · exact iff_of_true ⟨r, hmem, hb⟩ (.inr hb)
      · simp only [hb, not_false_eq_true, and_true, or_false]
    · obtain ⟨hx, hne⟩ := (hm.mem_erase hmem).1 hx
      exact ⟨hx, fun hxlt => (hlast x hx hxlt).resolve_left hne⟩
  · obtain ⟨rfl, rfl⟩ := h
    refine ⟨le_rfl, hm, fun b => (or_iff_left (by omega)).symm, fun x hx => ⟨hx, fun hxlt => ?_⟩⟩
    obtain rfl | hxr := hlast x hx hxlt
    · omega
    · omega

theorem joinAfter_spec {last' : Nat} (hm : Separated m) (h : joinAfter offset last m = some (last', next)) :
    last ≤ last' ∧ Separated next ∧ (∀ b, Covers m b ↔ Covers next b ∨ (last ≤ b ∧ b < last')) ∧
      ∀ r ∈ next, r ∈ m ∧ (offset ≤ r.1 → last' < r.1) := by
  rw [joinAfter] at h
  obtain hnone | ⟨r, hr⟩ := (Ranges.after offset m).eq_none_or_eq_some
  · simp only [hnone, Option.some.injEq, Prod.mk.injEq] at h
    obtain ⟨rfl, rfl⟩ := h
    exact ⟨le_rfl, hm, fun b => (or_iff_left (by omega)).symm, fun r hr => ⟨hr, fun hle => absurd hle (not_le.2 (Separated.after_none hnone hr))⟩⟩
  simp only [hr] at h
  obtain ⟨hmem, hle, hfirst⟩ := hm.after hr
  split at h
  · cases h
  split at h <;> simp only [Option.some.injEq, Prod.mk.injEq] at h
  · obtain ⟨rfl, rfl⟩ := h
    refine ⟨Nat.le_add_right .., hm.erase _, fun b => ?_, fun x hx => ?_⟩
    · rw [hm.covers_erase hmem]
      rw [show last = r.1 from Eq.symm (by assumption)]
      by_cases hb : r.1 ≤ b ∧ b < r.1 + r.2
      · exact iff_of_true ⟨r, hmem, hb⟩ (.inr hb)
      · simp only [hb, not_false_eq_true, and_true, or_false]
    · obtain ⟨hx, hne⟩ := (hm.mem_erase hmem).1 hx
      refine ⟨hx, fun hxle => ?_⟩
      have := (hfirst x hx hxle).resolve_left hne
      omega
  · obtain ⟨rfl, rfl⟩ := h
    refine ⟨le_rfl, hm, fun b => (or_iff_left (by omega)).symm, fun x hx => ⟨hx, fun hxle => ?_⟩⟩
    obtain rfl | hxr := hfirst x hx hxle
    · omega
    · omega

/-- A call that fails changes nothing; one that succeeds adds the span, of which nothing was free, to the free ranges. -/
theorem releaseOffset_spec (hm : Separated arena.freeRanges) :
    ∀ x, releaseOffset arena offset span outOfMemory = x → (x.1 ≠ .success → x.2 = arena) ∧ (x.1 = .success →
      x.2.rankStride = arena.rankStride ∧
      0 < span ∧ offset + span ≤ arena.rankStride ∧ Separated x.2.freeRanges ∧
      ∀ b, Covers x.2.freeRanges b ↔ Covers arena.freeRanges b ∨ (offset ≤ b ∧ b < offset + span)) := by
  rintro x rfl
  rw [releaseOffset]
  by_cases hargs : span = 0 ∨ offset > arena.rankStride ∨ span > arena.rankStride - offset
  · simp [hargs]
  rw [if_neg hargs]
  by_cases hoom : outOfMemory
  · simp [hoom]
  rw [if_neg hoom]
  obtain hnone | ⟨⟨start, next⟩, hbefore⟩ := (joinBefore offset arena.freeRanges).eq_none_or_eq_some
  · simp [hnone]
  rw [hbefore]
  simp only
  obtain hnone | ⟨⟨last, next'⟩, hafter⟩ := (joinAfter offset (offset + span) next).eq_none_or_eq_some
  · simp [hnone]
  rw [hafter]
  obtain ⟨hstart, hnext, hcover, hleft⟩ := joinBefore_spec hm hbefore
  obtain ⟨hlast, hnext', hcover', hright⟩ := joinAfter_spec hnext hafter
  have hgap : ∀ r ∈ next', r.1 + r.2 < start ∨ start + (last - start) < r.1 := fun r hr => by
    obtain ⟨hr, hend⟩ := hright r hr
    have hbegin := (hleft r hr).2
    by_cases hlt : r.1 < offset
    · exact .inl (hbegin hlt)
    · omega
  refine ⟨fun h => absurd rfl h, fun _ => ⟨rfl, by omega, by omega, hnext'.emplace (by omega) hgap, fun b => ?_⟩⟩
  rw [covers_emplace fun r hr heq => by have := hgap r hr; omega, hcover, hcover']
  have : start ≤ b ∧ b < start + (last - start) ↔
      (start ≤ b ∧ b < offset) ∨ (offset ≤ b ∧ b < offset + span) ∨ (offset + span ≤ b ∧ b < last) := by omega
  rw [this]
  simp only [or_assoc, or_comm, or_left_comm]

theorem releaseOffset_eq_success (hm : Separated arena.freeRanges) (hpos : 0 < span) (hend : offset + span ≤ arena.rankStride)
    (hfree : ∀ b, offset ≤ b ∧ b < offset + span → ¬ Covers arena.freeRanges b) :
    (releaseOffset arena offset span false).1 = .success := by
  have hbefore : ∃ x, joinBefore offset arena.freeRanges = some x := by
    rw [joinBefore]
    split
    · exact ⟨_, rfl⟩
    · rename_i start length hb
      obtain ⟨hmem, hlt, -⟩ := hm.before hb
      rw [if_neg fun hgt => hfree offset (by omega) ⟨_, hmem, hlt.le, hgt⟩]
      split <;> exact ⟨_, rfl⟩
  obtain ⟨⟨start, next⟩, hbefore⟩ := hbefore
  obtain ⟨-, hnext, -, hsub⟩ := joinBefore_spec hm hbefore
  have hafter : ∃ x, joinAfter offset (offset + span) next = some x := by
    rw [joinAfter]
    split
    · exact ⟨_, rfl⟩
    · rename_i first length ha
      obtain ⟨hmem, hle, -⟩ := hnext.after ha
      have hlen := hnext.nonempty _ hmem
      rw [if_neg fun hlt => hfree first ⟨hle, hlt⟩ ⟨_, (hsub _ hmem).1, le_rfl, Nat.lt_add_of_pos_right hlen⟩]
      split <;> exact ⟨_, rfl⟩
  obtain ⟨⟨last, next'⟩, hafter⟩ := hafter
  rw [releaseOffset, if_neg (by omega), if_neg (by decide), hbefore]
  simp only [hafter]

end Release

/-! ## Runs -/

section Run
variable {h : Heap} {offset span b rankStride : Nat} {s s' : Nat × Nat}

theorem Disjoint.of_covers (hs : 0 < s.2) (hs' : 0 < s'.2) (hb : ∀ b, s.1 ≤ b ∧ b < s.1 + s.2 → ¬ (s'.1 ≤ b ∧ b < s'.1 + s'.2)) :
    Disjoint s s' := by
  have := hb (max s.1 s'.1)
  rw [Disjoint]
  omega

theorem mem_cut {r : Nat × Nat} (hr : r ∈ cut offset span s) : 0 < r.2 ∧ s.1 ≤ r.1 ∧ r.1 + r.2 ≤ s.1 + s.2 := by
  obtain ⟨hr, hpos⟩ := mem_filter.1 hr
  simp only [mem_cons, not_mem_nil, or_false] at hr
  have hpos := of_decide_eq_true hpos
  obtain rfl | rfl := hr <;> simp only at hpos ⊢ <;> omega

theorem covers_cut : Covers (cut offset span s) b ↔ (s.1 ≤ b ∧ b < s.1 + s.2) ∧ ¬ (offset ≤ b ∧ b < offset + span) := by
  constructor
  · rintro ⟨r, hr, hb⟩
    obtain ⟨hr, -⟩ := mem_filter.1 hr
    simp only [mem_cons, not_mem_nil, or_false] at hr
    obtain rfl | rfl := hr <;> simp only at hb ⊢ <;> omega
  · rintro ⟨hb, hspan⟩
    by_cases hlt : b < offset
    · exact ⟨_, mem_filter.2 ⟨mem_cons_self .., decide_eq_true (by simp only; omega)⟩, by simp only; omega⟩
    · refine ⟨(max s.1 (offset + span), s.1 + s.2 - max s.1 (offset + span)), mem_filter.2 ⟨by simp, decide_eq_true ?_⟩, ?_⟩
      · omega
      · omega

variable {owned : List (Nat × Nat)}

theorem covers_flatMap_cut :
    Covers (owned.flatMap (cut offset span)) b ↔ Covers owned b ∧ ¬ (offset ≤ b ∧ b < offset + span) := by
  constructor
  · rintro ⟨r, hr, hb⟩
    obtain ⟨s, hs, hr⟩ := mem_flatMap.1 hr
    obtain ⟨hsb, hspan⟩ := covers_cut.1 ⟨r, hr, hb⟩
    exact ⟨⟨s, hs, hsb⟩, hspan⟩
  · rintro ⟨⟨s, hs, hsb⟩, hspan⟩
    obtain ⟨r, hr, hb⟩ := covers_cut.2 ⟨hsb, hspan⟩
    exact ⟨r, mem_flatMap.2 ⟨s, hs, hr⟩, hb⟩

theorem pairwise_cut : (cut offset span s).Pairwise Disjoint := by
  refine List.Pairwise.filter _ (pairwise_pair.2 (.inl ?_))
  omega

theorem pairwise_flatMap_cut (h : owned.Pairwise Disjoint) : (owned.flatMap (cut offset span)).Pairwise Disjoint := by
  refine pairwise_flatMap.2 ⟨fun _ _ => pairwise_cut, h.imp fun hdis r hr r' hr' => ?_⟩
  have := mem_cut hr
  have := mem_cut hr'
  rw [Disjoint] at hdis ⊢
  omega

theorem fresh_sound (hpos : 0 < rankStride) : Sound (fresh rankStride) where
  separated := ⟨by simpa [fresh] using hpos, pairwise_singleton _ _⟩
  inside := by simp [fresh]
  complement b hb := by simpa [fresh, Covers] using hb
  owned_inside _ hs := nomatch hs
  owned_disjoint := List.Pairwise.nil

theorem settle_failed {x : Result × Arena} (hfail : x.1 ≠ .success) (harena : x.2 = h.arena) : (settle h x owned).2 = h := by
  rw [settle, if_neg hfail, harena]

section

variable (hs : Sound h)
include hs

theorem step_failed {call : Call} (hfail : (step h call).1 ≠ .success) : (step h call).2 = h := by
  cases call with
  | allocate span alignment outOfMemory =>
    rw [step] at hfail ⊢
    cases hfind : findOffset h.arena span alignment with
    | error result => rfl
    | ok offset =>
      rw [hfind] at hfail
      exact settle_failed hfail ((markOffset_spec hs.separated _ rfl).1 hfail)
  | release offset span outOfMemory => exact settle_failed hfail ((releaseOffset_spec hs.separated _ rfl).1 hfail)

theorem step_sound (call : Call) : Sound (step h call).2 := by
  by_cases hok : (step h call).1 = .success
  swap
  · rwa [step_failed hs hok]
  have hcov := hs.separated.inside_iff.1 hs.inside
  cases call with
  | allocate span alignment outOfMemory =>
    rw [step] at hok ⊢
    cases hfind : findOffset h.arena span alignment with
    | error result => exact hs
    | ok offset =>
      rw [hfind] at hok
      have hok : (markOffset h.arena offset span outOfMemory).1 = .success := hok
      obtain ⟨hstride, hpos, hend, hfree, hsep, hmark⟩ := (markOffset_spec hs.separated _ rfl).2 hok
      simp only [settle, hok, if_true]
      -- the span was free, so no owned span has an address in it
      have hnot : ∀ b, offset ≤ b ∧ b < offset + span → ¬ Covers h.owned b := fun b hb => by
        refine (hs.complement b (by omega)).1 ?_
        have := hfree (b - offset) (by omega)
        rwa [Nat.add_sub_cancel' hb.1] at this
      refine ⟨hsep, ?_, ?_, ?_, pairwise_cons.2 ⟨fun s hs' => ?_, hs.owned_disjoint⟩⟩
      · refine hsep.inside_iff.2 fun b hb => ?_
        rw [hstride]
        exact hcov b ((hmark b).1 hb).1
      · intro b hb
        rw [hstride] at hb
        rw [hmark, hs.complement b hb, covers_cons, not_or, and_comm]
      · simp only [mem_cons, forall_eq_or_imp, hstride]
        exact ⟨⟨hpos, hend⟩, hs.owned_inside⟩
      · exact Disjoint.of_covers hpos (hs.owned_inside s hs').1 fun b hb hb' => hnot b hb ⟨s, hs', hb'⟩
  | release offset span outOfMemory =>
    have hok : (releaseOffset h.arena offset span outOfMemory).1 = .success := hok
    obtain ⟨hstride, hpos, hend, hsep, hrelease⟩ := (releaseOffset_spec hs.separated _ rfl).2 hok
    simp only [step, settle, hok, if_true]
    refine ⟨hsep, ?_, ?_, ?_, pairwise_flatMap_cut hs.owned_disjoint⟩
    · refine hsep.inside_iff.2 fun b hb => ?_
      rw [hstride]
      obtain hb | hb := (hrelease b).1 hb
      · exact hcov b hb
      · omega
    · intro b hb
      rw [hstride] at hb
      rw [hrelease, hs.complement b hb, covers_flatMap_cut]
      tauto
    · intro r hr
      obtain ⟨s, hs', hr⟩ := mem_flatMap.1 hr
      have := mem_cut hr
      have := hs.owned_inside s hs'
      rw [hstride]
      omega

theorem run_sound (calls : List Call) : Sound (run h calls) := by
  induction calls generalizing h with
  | nil => exact hs
  | cons call calls ih => exact ih (step_sound hs call)

theorem step_rankStride (call : Call) : (step h call).2.arena.rankStride = h.arena.rankStride := by
  by_cases hok : (step h call).1 = .success
  swap
  · rw [step_failed hs hok]
  cases call with
  | allocate span alignment outOfMemory =>
    rw [step] at hok ⊢
    cases hfind : findOffset h.arena span alignment with
    | error result => rfl
    | ok offset =>
      rw [hfind] at hok
      exact ((markOffset_spec hs.separated _ rfl).2 hok).1
  | release offset span outOfMemory => exact ((releaseOffset_spec hs.separated _ rfl).2 hok).1

theorem run_rankStride (calls : List Call) : (run h calls).arena.rankStride = h.arena.rankStride := by
  induction calls generalizing h with
  | nil => rfl
  | cons call calls ih => exact (ih (step_sound hs call)).trans (step_rankStride hs call)

theorem freeRanges_eq {h' : Heap} (hs' : Sound h') (hstride : h.arena.rankStride = h'.arena.rankStride)
    (howned : ∀ b, Covers h.owned b ↔ Covers h'.owned b) : h.arena.freeRanges = h'.arena.freeRanges := by
  refine hs.separated.ext hs'.separated fun b => ?_
  by_cases hb : b < h.arena.rankStride
  · rw [hs.complement b hb, hs'.complement b (hstride ▸ hb), howned]
  · exact iff_of_false (fun hc => hb (hs.separated.inside_iff.1 hs.inside b hc))
      fun hc => hb (hstride ▸ hs'.separated.inside_iff.1 hs'.inside b hc)

end

end Run

/-! ## Releasing everything -/

section Releases
variable {h : Heap} {offset span : Nat} {s t : Nat × Nat} {spans : List (Nat × Nat)}

def releaseCall (s : Nat × Nat) : Call := .release s.1 s.2 false

theorem cut_self : cut s.1 s.2 s = [] := by simp [cut]

theorem cut_of_disjoint (hs : 0 < s.2) (ht : 0 < t.2) (hd : Disjoint s t) : cut s.1 s.2 t = [t] := by
  obtain ⟨offset, span⟩ := s
  obtain ⟨start, length⟩ := t
  simp only [cut, Disjoint] at *
  rcases hd with hd | hd
  · have hleft : min (start + length) offset - start = 0 := by omega
    have hright : max start (offset + span) = start := by omega
    simp [hleft, hright, ht]
  · have hleft : min (start + length) offset - start = length := by omega
    have hright : start + length - max start (offset + span) = 0 := by omega
    simp [hleft, hright, ht]

/-- The release of an owned span takes it from the owned ones and leaves the others. -/
theorem step_releaseCall (hs : Sound h) (hperm : h.owned.Perm (s :: spans)) :
    (step h (releaseCall s)).1 = .success ∧ (step h (releaseCall s)).2.owned.Perm spans := by
  have hmem : s ∈ h.owned := hperm.mem_iff.2 mem_cons_self
  obtain ⟨hpos, hend⟩ := hs.owned_inside s hmem
  have hok := releaseOffset_eq_success hs.separated hpos hend fun b hb hfree =>
    (hs.complement b (by omega)).1 hfree ⟨s, hmem, hb⟩
  refine ⟨hok, ?_⟩
  have hpair := (hperm.pairwise_iff fun hd => hd.symm).1 hs.owned_disjoint
  have hcut : (s :: spans).flatMap (cut s.1 s.2) = spans := by
    rw [flatMap_cons, cut_self, nil_append]
    conv_rhs => rw [← flatMap_singleton' spans]
    refine flatMap_congr fun t ht => ?_
    exact cut_of_disjoint hpos (hs.owned_inside t (hperm.mem_iff.2 (mem_cons_of_mem _ ht))).1
      ((pairwise_cons.1 hpair).1 t ht)
  simp only [releaseCall, step, settle, hok, if_true]
  exact (hperm.flatMap_right _).trans (.of_eq hcut)

theorem releaseAll_spec (hs : Sound h) (hperm : h.owned.Perm spans) :
    (∀ front s, front ++ [s] <+: spans → (step (run h (front.map releaseCall)) (releaseCall s)).1 = .success) ∧
      (run h (spans.map releaseCall)).owned = [] := by
  induction spans generalizing h with
  | nil => exact ⟨fun front s hf => by simpa using prefix_nil.1 hf, hperm.eq_nil⟩
  | cons s spans ih =>
    obtain ⟨hok, hperm⟩ := step_releaseCall hs hperm
    obtain ⟨hfront, hend⟩ := ih (step_sound hs (releaseCall s)) hperm
    refine ⟨fun front t hf => ?_, hend⟩
    cases front with
    | nil =>
      obtain rfl := (cons_prefix_cons.1 hf).1
      exact hok
    | cons u front =>
      obtain ⟨rfl, hrest⟩ := cons_prefix_cons.1 hf
      exact hfront front t hrest

/-- **The arena comes back as it was.** After any calls, releasing the owned spans in any order succeeds each time, and leaves
the one free range that the arena began with. -/
theorem releaseAll_fresh {rankStride : Nat} (hpos : 0 < rankStride) (calls : List Call) (spans : List (Nat × Nat))
    (hperm : (run (fresh rankStride) calls).owned.Perm spans) :
    (∀ front s, front ++ [s] <+: spans →
      (step (run (run (fresh rankStride) calls) (front.map releaseCall)) (releaseCall s)).1 = .success) ∧
    run (run (fresh rankStride) calls) (spans.map releaseCall) = fresh rankStride := by
  have hs := run_sound (fresh_sound hpos) calls
  obtain ⟨hfront, hend⟩ := releaseAll_spec hs hperm
  refine ⟨hfront, ?_⟩
  have hstride := (run_rankStride hs (spans.map releaseCall)).trans (run_rankStride (fresh_sound hpos) calls)
  have hfree := freeRanges_eq (run_sound hs (spans.map releaseCall)) (fresh_sound hpos) hstride fun b => by
    rw [hend]
    rfl
  exact congrArg₂ Heap.mk (congrArg₂ Arena.mk hstride hfree) hend

/-- Two spans, and the first one released first. -/
theorem releaseAll_fresh_two :
    run (run (fresh 16) [.allocate 8 8 false, .allocate 4 4 false]) [releaseCall (0, 8), releaseCall (8, 4)] = fresh 16 :=
  (releaseAll_fresh (by decide) [.allocate 8 8 false, .allocate 4 4 false] [(0, 8), (8, 4)] (by decide)).2

end Releases

end FlagCX.SymHeap
