import Mathlib.Tactic.SplitIfs
import Mathlib.Tactic.Tauto
import FlagCX.Lib.Ranges
import FlagCX.Result

/-!
# The registry of allocations (`mem_alloc_registry.cc`)

* `insert`, `findExact`, `findRange`, `retainWindowRange`, `releaseWindow`, `erase` : the calls; the mutex makes each atomic.
* `Run`, `run`     : the calls one after the other, with a log of the ones that changed the map.
* `Run.Kept`       : the recorded ranges are apart, and the log accounts for their windows.
* `registry_exact` : what the calls answer after any sequence of calls.
-/

namespace FlagCX.MemAlloc
open Lib List

inductive Backend where
  | native
  | ccl
  | shmem
  deriving DecidableEq, Repr

/-- `flagcxMemAllocationInfo`; the allocator by its number. -/
structure AllocationInfo where
  base : Nat
  size : Nat
  allocator : Nat
  backend : Backend
  isVmm : Bool
  windowRefs : Nat
  deriving DecidableEq, Repr

/-- `allocations_` in the order of its keys, the bases. -/
abbrev Registry := List AllocationInfo

def validRange (base size : Nat) : Bool := base ≠ 0 ∧ size ≠ 0 ∧ size ≤ 2 ^ 64 - 1 - base

/-- `memory`: the node of the map can be allocated. -/
def insert (m : Registry) (info : AllocationInfo) (memory : Bool) : Except Result Registry :=
  if validRange info.base info.size = false then .error .invalidArgument
  else if (m.find? (info.base ≤ ·.base)).any (·.base < (info.base + info.size) % 2 ^ 64) then .error .invalidUsage
  else if (m.filter (·.base < info.base)).getLast?.any (fun prev => info.base < (prev.base + prev.size) % 2 ^ 64) then
    .error .invalidUsage
  else if memory then .ok (m.filter (·.base < info.base) ++ info :: m.filter (info.base ≤ ·.base))
  else .error .systemError

def findExact (m : Registry) (base : Nat) : Except Result AllocationInfo :=
  if base = 0 then .error .invalidArgument
  else match m.find? (·.base = base) with
    | some info => .ok info
    | none => .error .invalidUsage

/-- The range before `upper_bound` is the last one that does not start above the address. -/
def findRange (m : Registry) (ptr size : Nat) : Except Result AllocationInfo :=
  if ptr = 0 ∨ size = 0 then .error .invalidArgument
  else match (m.filter (·.base ≤ ptr)).getLast? with
    | none => .error .invalidUsage
    | some info =>
      if info.size < ptr - info.base ∨ info.size - (ptr - info.base) < size then .error .invalidUsage else .ok info

def setRefs (m : Registry) (base : Nat) (refs : Nat) : Registry :=
  m.map fun info => if info.base = base then { info with windowRefs := refs } else info

/-- The search is the one of `findRange`. -/
def retainWindowRange (m : Registry) (ptr size : Nat) : Except Result (Registry × Nat) := do
  let info ← findRange m ptr size
  if info.windowRefs = 2 ^ 64 - 1 then .error .systemError else .ok (setRefs m info.base (info.windowRefs + 1), info.base)

def releaseWindow (m : Registry) (base : Nat) : Except Result Registry := do
  let info ← findExact m base
  if info.windowRefs = 0 then .error .invalidUsage else .ok (setRefs m base (info.windowRefs - 1))

def erase (m : Registry) (base : Nat) : Except Result Registry := do
  let info ← findExact m base
  if info.windowRefs ≠ 0 then .error .invalidUsage else .ok (m.filter (·.base ≠ base))

/-- A call that changed the map; a record comes with a count of windows, 0 for a fresh allocation. -/
inductive Event where
  | inserted (base refs : Nat)
  | retained (base : Nat)
  | released (base : Nat)

def Event.refs (base : Nat) : Event → Int
  | .inserted b refs => if b = base then refs else 0
  | .retained b => if b = base then 1 else 0
  | .released b => if b = base then -1 else 0

inductive Call where
  | insert (info : AllocationInfo) (memory : Bool)
  | retainWindowRange (ptr size : Nat)
  | releaseWindow (base : Nat)
  | erase (base : Nat)

structure Run where
  map : Registry
  log : List Event

def Run.call (s : Run) : Call → Run
  | .insert info memory => match insert s.map info memory with
    | .ok m => ⟨m, .inserted info.base info.windowRefs :: s.log⟩
    | .error _ => s
  | .retainWindowRange ptr size => match retainWindowRange s.map ptr size with
    | .ok (m, base) => ⟨m, .retained base :: s.log⟩
    | .error _ => s
  | .releaseWindow base => match releaseWindow s.map base with
    | .ok m => ⟨m, .released base :: s.log⟩
    | .error _ => s
  | .erase base => match erase s.map base with
    | .ok m => ⟨m, s.log⟩
    | .error _ => s

def run (calls : List Call) : Run := calls.foldl Run.call ⟨[], []⟩

/-- The retains less the releases on the base, and what its records came with. -/
def Run.windows (s : Run) (base : Nat) : Int := (s.log.map (Event.refs base)).sum

/-- The addresses from `ptr` on lie in the range. -/
def AllocationInfo.Holds (info : AllocationInfo) (ptr size : Nat) : Prop :=
  info.base ≤ ptr ∧ ptr + size ≤ info.base + info.size

/-- The ranges do not meet, and none reaches the end of the address space. -/
structure Apart (m : Registry) : Prop where
  apart : m.Pairwise fun info next => info.base + info.size ≤ next.base
  valid : ∀ info ∈ m, 0 < info.base ∧ 0 < info.size ∧ info.base + info.size < 2 ^ 64

structure Run.Kept (s : Run) : Prop where
  map : Apart s.map
  windows : ∀ info ∈ s.map, info.windowRefs = s.windows info.base
  idle : ∀ base, (∀ info ∈ s.map, info.base ≠ base) → s.windows base = 0

variable {m m' : Registry} {info x : AllocationInfo} {memory : Bool} {ptr size base : Nat} {s : Run}

theorem guarded_ok {α β : Type} {find : Except Result α} {stops : α → Prop} [DecidablePred stops] {code : Result}
    {f : α → β} {b : β} :
    (do let a ← find; if stops a then .error code else .ok (f a)) = Except.ok b ↔ ∃ a, find = .ok a ∧ ¬ stops a ∧ f a = b := by
  cases find with
  | error => simp [bind, Except.bind]
  | ok a =>
    have hguard : (if stops a then .error code else .ok (f a)) = Except.ok b ↔ ¬ stops a ∧ f a = b := by split_ifs <;> simp [*]
    simpa [bind, Except.bind] using hguard

namespace Apart

variable (h : Apart m)
include h

theorem eq_of_base (hinfo : info ∈ m) (hx : x ∈ m) (heq : info.base = x.base) : info = x := by
  have hpos := h.valid info hinfo
  have hpos' := h.valid x hx
  obtain heq | hlt | hlt := pairwise_cases h.apart hinfo hx
  · exact heq
  · omega
  · omega

theorem exists_last {p : AllocationInfo → Bool} (hx : x ∈ m) (hp : p x) :
    ∃ last, (m.filter p).getLast? = some last ∧ last ∈ m ∧ p last ∧ (x = last ∨ x.base + x.size ≤ last.base) := by
  obtain ⟨last, hl⟩ := Option.isSome_iff_exists.1 (getLast?_isSome.2 (ne_nil_of_mem (mem_filter.2 ⟨hx, hp⟩)))
  obtain ⟨hmem, hlp, hlast⟩ := pairwise_last h.apart hl
  exact ⟨last, hl, hmem, hlp, hlast x hx hp⟩

theorem insert (hi : insert m info memory = .ok m') :
    Apart m' ∧ (∀ x, x ∈ m' ↔ x = info ∨ x ∈ m) ∧ ∀ x ∈ m, x.base ≠ info.base := by
  unfold MemAlloc.insert at hi
  split_ifs at hi with hvalid hnext hprev hmemory
  cases hi
  obtain ⟨hbase, hsize, hend⟩ : info.base ≠ 0 ∧ info.size ≠ 0 ∧ info.size ≤ 2 ^ 64 - 1 - info.base := by
    simpa [validRange] using hvalid
  have hafter : ∀ x ∈ m, info.base ≤ x.base → info.base + info.size ≤ x.base := by
    intro x hx hle
    have hp : decide (info.base ≤ x.base) = true := decide_eq_true hle
    obtain ⟨next, hn⟩ := Option.isSome_iff_exists.1 (find?_isSome (p := (info.base ≤ ·.base)).2 ⟨x, hx, hp⟩)
    rw [hn, Option.any_some, decide_eq_true_eq, Nat.mod_eq_of_lt (by omega)] at hnext
    obtain ⟨-, -, hfirst⟩ := pairwise_first h.apart hn
    obtain rfl | hlt := hfirst x hx (decide_eq_true hle)
    · omega
    · omega
  have hbefore : ∀ x ∈ m, x.base < info.base → x.base + x.size ≤ info.base := by
    intro x hx hlt
    obtain ⟨prev, hp, hmem, -, hlast⟩ := h.exists_last (p := (·.base < info.base)) hx (decide_eq_true hlt)
    rw [hp, Option.any_some, decide_eq_true_eq, Nat.mod_eq_of_lt (h.valid prev hmem).2.2] at hprev
    obtain rfl | hle := hlast
    · omega
    · omega
  have hmem : ∀ x, x ∈ m.filter (·.base < info.base) ++ info :: m.filter (info.base ≤ ·.base) ↔ x = info ∨ x ∈ m := by
    intro x
    simp only [mem_append, mem_cons, mem_filter, decide_eq_true_eq]
    have := Nat.lt_or_ge x.base info.base
    tauto
  refine ⟨⟨?_, fun x hx => ?_⟩, hmem, fun x hx heq => ?_⟩
  · refine pairwise_append.2 ⟨h.apart.filter _, pairwise_cons.2 ⟨fun x hx => ?_, h.apart.filter _⟩, fun x hx y hy => ?_⟩
    · have := mem_filter.1 hx
      exact hafter x this.1 (by simpa using this.2)
    · have hxm := mem_filter.1 hx
      have hle := hbefore x hxm.1 (by simpa using hxm.2)
      obtain rfl | hy := mem_cons.1 hy
      · exact hle
      · have := mem_filter.1 hy
        exact hle.trans (by simpa using this.2)
  · obtain rfl | hx := (hmem x).1 hx
    · omega
    · exact h.valid x hx
  · have := hafter x hx (by omega)
    have := h.valid x hx
    omega

theorem findExact_iff : findExact m base = .ok info ↔ info ∈ m ∧ info.base = base := by
  unfold findExact
  constructor
  · intro hf
    split_ifs at hf with hbase
    cases hl : m.find? (·.base = base) with
    | none =>
      rw [hl] at hf
      cases hf
    | some y =>
      rw [hl] at hf
      cases hf
      exact ⟨mem_of_find?_eq_some hl, by simpa using find?_some hl⟩
  · rintro ⟨hinfo, rfl⟩
    rw [if_neg (h.valid info hinfo).1.ne']
    obtain ⟨y, hy⟩ := Option.isSome_iff_exists.1 (find?_isSome (p := (·.base = info.base)).2 ⟨info, hinfo, decide_eq_true rfl⟩)
    rw [hy, h.eq_of_base (mem_of_find?_eq_some hy) hinfo (by simpa using find?_some hy)]

theorem findRange_iff : findRange m ptr size = .ok info ↔ size ≠ 0 ∧ info ∈ m ∧ info.Holds ptr size := by
  unfold findRange AllocationInfo.Holds
  constructor
  · intro hf
    split_ifs at hf with hargs
    cases hl : (m.filter (·.base ≤ ptr)).getLast? with
    | none =>
      rw [hl] at hf
      cases hf
    | some y =>
      rw [hl] at hf
      obtain ⟨hy, hle, -⟩ := pairwise_last h.apart hl
      rw [decide_eq_true_eq] at hle
      dsimp only at hf
      split_ifs at hf with hout
      cases hf
      exact ⟨by omega, hy, by omega, by omega⟩
  · rintro ⟨hsize, hinfo, hle, hend⟩
    have hpos := h.valid info hinfo
    rw [if_neg (by omega)]
    obtain ⟨y, hy, hmem, hyle, hlast⟩ := h.exists_last (p := (·.base ≤ ptr)) hinfo (decide_eq_true hle)
    rw [decide_eq_true_eq] at hyle
    obtain rfl | hlt := hlast
    · rw [hy]
      exact if_neg (by omega)
    · omega

theorem setRefs (base refs : Nat) : Apart (setRefs m base refs) := by
  have hrange : ∀ x : AllocationInfo, (if x.base = base then { x with windowRefs := refs } else x).base = x.base ∧
      (if x.base = base then { x with windowRefs := refs } else x).size = x.size := fun x => by split_ifs <;> simp
  refine ⟨pairwise_map.2 (h.apart.imp fun {x y} hle => ?_), fun x hx => ?_⟩
  · rw [(hrange x).1, (hrange x).2, (hrange y).1]
    exact hle
  · obtain ⟨y, hy, rfl⟩ := mem_map.1 hx
    rw [(hrange y).1, (hrange y).2]
    exact h.valid y hy

theorem retainWindowRange_iff : retainWindowRange m ptr size = .ok (m', base) ↔
    ∃ info ∈ m, size ≠ 0 ∧ info.Holds ptr size ∧ info.windowRefs ≠ 2 ^ 64 - 1 ∧ info.base = base ∧
      MemAlloc.setRefs m base (info.windowRefs + 1) = m' := by
  rw [retainWindowRange, guarded_ok]
  refine exists_congr fun info => ?_
  rw [h.findRange_iff, Prod.mk.injEq]
  constructor
  · rintro ⟨⟨hsize, hinfo, hin⟩, hrefs, rfl, rfl⟩
    exact ⟨hinfo, hsize, hin, hrefs, rfl, rfl⟩
  · rintro ⟨hinfo, hsize, hin, hrefs, rfl, rfl⟩
    exact ⟨⟨hsize, hinfo, hin⟩, hrefs, rfl, rfl⟩

theorem releaseWindow_iff : releaseWindow m base = .ok m' ↔
    ∃ info ∈ m, info.base = base ∧ info.windowRefs ≠ 0 ∧ MemAlloc.setRefs m base (info.windowRefs - 1) = m' := by
  simp only [releaseWindow, guarded_ok, h.findExact_iff, and_assoc]

theorem erase_iff : erase m base = .ok m' ↔
    ∃ info ∈ m, info.base = base ∧ info.windowRefs = 0 ∧ m.filter (·.base ≠ base) = m' := by
  simp only [erase, guarded_ok, h.findExact_iff, and_assoc, not_not]

end Apart

theorem mem_setRefs (h : Apart m) (hinfo : info ∈ m) {refs : Nat} :
    x ∈ setRefs m info.base refs ↔ x = { info with windowRefs := refs } ∨ x ∈ m ∧ x.base ≠ info.base := by
  rw [setRefs, mem_map]
  constructor
  · rintro ⟨y, hy, rfl⟩
    by_cases heq : y.base = info.base
    · rw [if_pos heq, h.eq_of_base hy hinfo heq]
      exact .inl rfl
    · rw [if_neg heq]
      exact .inr ⟨hy, heq⟩
  · rintro (rfl | ⟨hx, hne⟩)
    · exact ⟨info, hinfo, if_pos rfl⟩
    · exact ⟨x, hx, if_neg hne⟩

theorem windows_cons {e : Event} : Run.windows ⟨m, e :: s.log⟩ base = e.refs base + s.windows base := by
  simp [Run.windows]

namespace Run.Kept

variable (h : s.Kept)
include h

theorem setRefs (hinfo : info ∈ s.map) {refs : Nat} {e : Event}
    (he : ∀ base, e.refs base = if info.base = base then (refs : Int) - info.windowRefs else 0) :
    Run.Kept ⟨MemAlloc.setRefs s.map info.base refs, e :: s.log⟩ := by
  have hwin : ∀ base, Run.windows ⟨MemAlloc.setRefs s.map info.base refs, e :: s.log⟩ base =
      (if info.base = base then (refs : Int) - info.windowRefs else 0) + s.windows base := fun base => by
    rw [windows_cons, he]
  refine ⟨h.map.setRefs .., fun x hx => ?_, fun base hnone => ?_⟩
  · obtain rfl | ⟨hx, hne⟩ := (mem_setRefs h.map hinfo).1 hx
    · rw [hwin, if_pos rfl, ← h.windows info hinfo, Int.sub_add_cancel]
    · rw [hwin, if_neg (Ne.symm hne), Int.zero_add]
      exact h.windows x hx
  · have hne : info.base ≠ base := hnone { info with windowRefs := refs } ((mem_setRefs h.map hinfo).2 (.inl rfl))
    rw [hwin, if_neg hne, Int.zero_add]
    refine h.idle base fun x hx heq => ?_
    exact hnone x ((mem_setRefs h.map hinfo).2 (.inr ⟨hx, by rwa [heq, ne_comm]⟩)) heq

theorem insert (hi : MemAlloc.insert s.map info memory = .ok m') :
    Run.Kept ⟨m', .inserted info.base info.windowRefs :: s.log⟩ := by
  obtain ⟨hmap, hmem, hfresh⟩ := h.map.insert hi
  have hwin : ∀ base, Run.windows ⟨m', .inserted info.base info.windowRefs :: s.log⟩ base =
      (if info.base = base then (info.windowRefs : Int) else 0) + s.windows base := fun base => windows_cons
  refine ⟨hmap, fun x hx => ?_, fun base hnone => ?_⟩
  · obtain rfl | hx := (hmem x).1 hx
    · rw [hwin, if_pos rfl, h.idle _ hfresh, Int.add_zero]
    · rw [hwin, if_neg (hfresh x hx).symm, Int.zero_add]
      exact h.windows x hx
  · rw [hwin, if_neg (hnone info ((hmem info).2 (.inl rfl))), Int.zero_add]
    exact h.idle base fun x hx => hnone x ((hmem x).2 (.inr hx))

theorem erase (hinfo : info ∈ s.map) (hidle : info.windowRefs = 0) : Run.Kept ⟨s.map.filter (·.base ≠ info.base), s.log⟩ := by
  refine ⟨⟨h.map.apart.filter _, fun x hx => h.map.valid x (mem_of_mem_filter hx)⟩,
    fun x hx => h.windows x (mem_of_mem_filter hx), fun base hnone => ?_⟩
  by_cases heq : info.base = base
  · have := h.windows info hinfo
    rw [heq, hidle] at this
    exact this.symm
  · refine h.idle base fun x hx hxb => hnone x (mem_filter.2 ⟨hx, decide_eq_true ?_⟩) hxb
    rwa [hxb, ne_comm]

theorem call (c : Call) : (s.call c).Kept := by
  cases c with
  | insert info memory =>
    rw [Run.call]
    cases hi : MemAlloc.insert s.map info memory with
    | error => exact h
    | ok m => exact h.insert hi
  | retainWindowRange ptr size =>
    rw [Run.call]
    cases hr : retainWindowRange s.map ptr size with
    | error => exact h
    | ok out =>
      obtain ⟨m, base⟩ := out
      obtain ⟨info, hinfo, -, -, -, rfl, rfl⟩ := h.map.retainWindowRange_iff.1 hr
      exact h.setRefs hinfo fun base => by rw [Event.refs]; split_ifs <;> omega
  | releaseWindow base =>
    rw [Run.call]
    cases hr : releaseWindow s.map base with
    | error => exact h
    | ok m =>
      obtain ⟨info, hinfo, rfl, hrefs, rfl⟩ := h.map.releaseWindow_iff.1 hr
      refine h.setRefs hinfo fun base => ?_
      rw [Event.refs, Int.natCast_sub (Nat.one_le_iff_ne_zero.2 hrefs)]
      split_ifs <;> omega
  | erase base =>
    rw [Run.call]
    cases hr : MemAlloc.erase s.map base with
    | error => exact h
    | ok m =>
      obtain ⟨info, hinfo, rfl, hrefs, rfl⟩ := h.map.erase_iff.1 hr
      exact h.erase hinfo hrefs

end Run.Kept

theorem kept_run (calls : List Call) : (run calls).Kept := by
  have hstart : Run.Kept ⟨[], []⟩ := ⟨⟨.nil, by simp⟩, by simp, by simp [Run.windows]⟩
  exact foldlRecOn calls Run.call hstart fun s hs c _ => hs.call c

/-- What holds after the calls: the ranges are disjoint, the two searches find the one range that holds a request of at
least one byte, a lease is refused only where the count is full, the counts are those of the log, and an erase needs a base
without windows. -/
structure Run.Exact (s : Run) : Prop where
  disjoint : s.map.Pairwise fun info next => ∀ a, ¬ (info.Holds a 1 ∧ next.Holds a 1)
  findRange : ∀ ptr size info, findRange s.map ptr size = .ok info ↔ size ≠ 0 ∧ info ∈ s.map ∧ info.Holds ptr size
  retain : ∀ ptr size base, (∃ m, retainWindowRange s.map ptr size = .ok (m, base)) ↔
    ∃ info ∈ s.map, size ≠ 0 ∧ info.Holds ptr size ∧ info.windowRefs ≠ 2 ^ 64 - 1 ∧ info.base = base
  windows : ∀ info ∈ s.map, info.windowRefs = s.windows info.base
  erase : ∀ base, (∃ m, MemAlloc.erase s.map base = .ok m) ↔ ∃ info ∈ s.map, info.base = base ∧ info.windowRefs = 0

theorem registry_exact (calls : List Call) : (run calls).Exact := by
  have h := kept_run calls
  refine ⟨h.map.apart.imp ?_, fun ptr size info => h.map.findRange_iff, fun ptr size base => ?_, h.windows, fun base => ?_⟩
  · rintro info next hle a ⟨⟨-, hend⟩, hstart, -⟩
    omega
  · simp [h.map.retainWindowRange_iff]
  · simp [h.map.erase_iff]

/-- An empty request lies inside every range, and is refused. -/
theorem registry_refuses_empty : ¬ ∀ calls ptr size, (∃ info, findRange (run calls).map ptr size = .ok info) ↔
    ∃ info ∈ (run calls).map, info.Holds ptr size := by
  intro h
  obtain ⟨info, hinfo⟩ := (h [.insert ⟨4096, 64, 0, .native, false, 0⟩ true] 4096 0).2
    ⟨_, mem_singleton_self _, by decide, by decide⟩
  cases hinfo

end FlagCX.MemAlloc
