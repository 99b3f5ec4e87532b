import FlagCX.Lib.KeyTable
import FlagCX.Group.Launch

/-!
# The semaphores of a group (`launch_kernel.h`)

A launch adds every operation to the semaphore of its group. The start signal lets the proxy begin, each operation that
ends counts itself off.

* `HostSemaphore`, `DeviceSemaphore` : the two semaphores with their calls; `none` is an assertion that fails.
* `device_refines_iff`               : the device semaphore does what the host semaphore does if and only if the group has
  at most 64 op ids.
-/

namespace FlagCX.Group
open Lib Function Option List

def opsPerSemaphore : Nat := 64

/-- `FLAGCX_SIGNAL_NSTEPS_OFFSET`. -/
def nStepsOffset : Nat := opsPerSemaphore

def counterOffset : Nat := 2 * opsPerSemaphore

/-! ## The host semaphore -/

/-- `flagcxHostSemaphore`. A signal holds `curStep` and `nSteps`; `stepInfo` gives the n-th op id signal n. -/
structure HostSemaphore where
  counter : Int
  stepInfo : KeyTable Int
  signals : Nat → Int × Int
  frozen : Bool

namespace HostSemaphore

def init : HostSemaphore := ⟨0, .empty, fun _ => (0, 0), false⟩

def setSignal (h : HostSemaphore) (i : Nat) (signal : Int × Int) : HostSemaphore :=
  { h with signals := update h.signals i signal }

def addCounter (h : HostSemaphore) (opId : Int) : Option HostSemaphore :=
  if h.frozen then none
  else match h.stepInfo.find? opId with
    | some i => some (h.setSignal i ((h.signals i).1, (h.signals i).2 + 1))
    | none => some { h.setSignal h.stepInfo.size (-1, 1) with
        stepInfo := h.stepInfo.add opId
        counter := h.counter + 1 }

def subCounter (h : HostSemaphore) (opId : Int) : Option HostSemaphore :=
  (h.stepInfo.find? opId).map fun i => h.setSignal i ((h.signals i).1 + 1, (h.signals i).2)

def pollStart (h : HostSemaphore) (opId step : Int) : Option Bool :=
  (h.stepInfo.find? opId).map fun i => decide (step ≤ (h.signals i).1)

def pollEnd (h : HostSemaphore) : Bool := h.counter = 0

def storeStart (h : HostSemaphore) (opId : Int) : HostSemaphore :=
  match h.stepInfo.find? opId with
  | some i => { h.setSignal i (0, (h.signals i).2) with frozen := true }
  | none => { h with frozen := true }

def signalStart (h : HostSemaphore) : HostSemaphore := h.stepInfo.keys.foldl storeStart { h with frozen := true }

/-- The comparison of `wait` for one op id. -/
def stepsDone (h : HostSemaphore) (opId : Int) : Bool :=
  match h.stepInfo.find? opId with
  | some i => (h.signals i).1 = (h.signals i).2
  | none => false

/-- What `wait` does with an op id that has made its steps. -/
def seeEnd (h : HostSemaphore) (opId : Int) : HostSemaphore :=
  match h.stepInfo.find? opId with
  | some i => h.setSignal i ((h.signals i).1 + 1, (h.signals i).2)
  | none => h

def endWait (h : HostSemaphore) : HostSemaphore := { h with counter := 0, frozen := false }

/-- What `wait` waits for: every op id has made its steps. -/
def Ended (h : HostSemaphore) : Prop := ∀ opId ∈ h.stepInfo.keys, h.stepsDone opId

end HostSemaphore

/-! ## The device semaphore -/

/-- `flagcxDeviceSemaphore`. `signals` is its block, which starts out zero. `opOffset` is the size of the table: the n-th
op id has its `curStep` at n and its `nSteps` at 64 + n. -/
structure DeviceSemaphore where
  opInfo : KeyTable Int
  signals : Nat → Int

namespace DeviceSemaphore

def init : DeviceSemaphore := ⟨.empty, fun _ => 0⟩

def setSignal (d : DeviceSemaphore) (i : Nat) (signal : Int) : DeviceSemaphore :=
  { d with signals := update d.signals i signal }

def getCounter (d : DeviceSemaphore) : Int := d.signals counterOffset

def takeSignals (d : DeviceSemaphore) (opId : Int) : DeviceSemaphore :=
  let d' := (d.setSignal d.opInfo.size (-1)).setSignal (nStepsOffset + d.opInfo.size) 1
  { d'.setSignal counterOffset (d'.getCounter + 1) with opInfo := d.opInfo.add opId }

@[simp] theorem takeSignals_opInfo (d : DeviceSemaphore) (opId : Int) :
    (d.takeSignals opId).opInfo = d.opInfo.add opId := rfl

def addCounter (d : DeviceSemaphore) (opId : Int) : Option DeviceSemaphore :=
  match d.opInfo.find? opId with
  | some i => some (d.setSignal (nStepsOffset + i) (d.signals (nStepsOffset + i) + 1))
  | none => if d.opInfo.size < opsPerSemaphore then some (d.takeSignals opId) else none

/-- `subCounter`. The last step of an op id lowers the counter instead. -/
def subCounter (d : DeviceSemaphore) (opId : Int) : Option DeviceSemaphore :=
  (d.opInfo.find? opId).map fun i =>
    if d.signals i + 1 = d.signals (nStepsOffset + i) then d.setSignal counterOffset (d.getCounter - 1)
    else d.setSignal i (d.signals i + 1)

def pollStart (d : DeviceSemaphore) (opId step : Int) : Option Bool :=
  (d.opInfo.find? opId).map fun i => decide (step ≤ d.signals i)

def pollEnd (d : DeviceSemaphore) : Bool := d.getCounter = 0

/-- The store of the kernel that sets a `curStep`. -/
def storeStart (d : DeviceSemaphore) (opId : Int) : DeviceSemaphore :=
  match d.opInfo.find? opId with
  | some i => d.setSignal i 0
  | none => d

/-- The loop of `asyncKernel`: it sets every `curStep` of the block. -/
def signalStart (d : DeviceSemaphore) : DeviceSemaphore :=
  { d with signals := fun i => if i < opsPerSemaphore then 0 else d.signals i }

end DeviceSemaphore

/-! ## What a semaphore keeps -/

theorem HostSemaphore.subCounter_keeps {h h' : HostSemaphore} {o : Int} (hsub : h.subCounter o = some h') :
    h'.stepInfo = h.stepInfo ∧ h'.counter = h.counter := by
  obtain ⟨i, -, rfl⟩ := map_eq_some_iff.1 hsub
  exact ⟨rfl, rfl⟩

theorem HostSemaphore.storeStart_keeps (h : HostSemaphore) (o : Int) :
    (h.storeStart o).stepInfo = h.stepInfo ∧ (h.storeStart o).counter = h.counter := by
  rw [storeStart]
  split
  · exact ⟨rfl, rfl⟩
  · exact ⟨rfl, rfl⟩

theorem HostSemaphore.seeEnd_keeps (h : HostSemaphore) (o : Int) :
    (h.seeEnd o).stepInfo = h.stepInfo ∧ (h.seeEnd o).counter = h.counter := by
  rw [seeEnd]
  split
  · exact ⟨rfl, rfl⟩
  · exact ⟨rfl, rfl⟩

/-- The operations of each op id: how many there are, how many have been counted off, whether the start has been stored and
whether `wait` has seen the end. -/
structure Counts where
  total : Int → Nat
  counted : Int → Nat
  started : Int → Bool
  waited : Int → Bool

namespace Counts

def zero : Counts := ⟨fun _ => 0, fun _ => 0, fun _ => false, fun _ => false⟩

def add (c : Counts) (o : Int) : Counts := { c with total := update c.total o (c.total o + 1) }

def start (c : Counts) (o : Int) : Counts := { c with started := update c.started o true, counted := update c.counted o 0 }

def count (c : Counts) (o : Int) : Counts := { c with counted := update c.counted o (c.counted o + 1) }

/-- The end `wait` has seen. -/
def wait (c : Counts) (o : Int) : Counts := { c with waited := update c.waited o true }

def startAll (c : Counts) : Counts := { c with started := fun _ => true, counted := fun _ => 0 }

def hostStep (c : Counts) (o : Int) : Int := (c.counted o + (c.waited o).toNat : Nat) - ((!c.started o).toNat : Int)

def deviceStep (c : Counts) (o : Int) : Int :=
  match c.started o with
  | true => (min (c.counted o) (c.total o - 1) : Nat)
  | false => (c.counted o : Int) - 1

/-- The op id has made all its steps. -/
def finished (c : Counts) (o : Int) : Bool := c.started o && decide (c.counted o = c.total o)

variable {c : Counts} {o o' : Int}

theorem count_of_ne (h : o' ≠ o) : (c.count o).counted o' = c.counted o' := update_of_ne h ..

theorem count_self : (c.count o).counted o = c.counted o + 1 := update_self ..

theorem deviceStep_last (h : c.counted o < c.total o) :
    c.deviceStep o + 1 = c.total o ↔ c.started o = true ∧ c.counted o + 1 = c.total o := by
  rw [deviceStep]
  cases c.started o with
  | true =>
    simp only [true_and]
    omega
  | false =>
    simp only [Bool.false_eq_true, false_and, iff_false]
    omega

theorem deviceStep_count_last (hs : c.started o = true) (h : c.counted o + 1 = c.total o) :
    (c.count o).deviceStep = c.deviceStep := by
  funext o'
  rw [deviceStep, deviceStep, count]
  by_cases hoo : o' = o
  · subst hoo
    simp only [hs, update_self]
    omega
  · simp only [update_of_ne hoo]

theorem deviceStep_count (h : c.counted o < c.total o) (hlast : ¬ (c.started o = true ∧ c.counted o + 1 = c.total o)) :
    (c.count o).deviceStep o = c.deviceStep o + 1 := by
  rw [deviceStep, deviceStep, count]
  cases hs : c.started o with
  | true =>
    have hne : c.counted o + 1 ≠ c.total o := fun heq => hlast ⟨hs, heq⟩
    simp only [update_self]
    omega
  | false =>
    simp only [update_self]
    omega

theorem deviceStep_add (hs : c.started o = false) : (c.add o).deviceStep = c.deviceStep := by
  funext o'
  rw [deviceStep, deviceStep, add]
  by_cases hoo : o' = o
  · subst hoo
    simp only [hs]
  · simp only [update_of_ne hoo]

theorem finished_of_started (hs : c.started o = false) : c.finished o = false := by rw [finished, hs, Bool.false_and]

theorem total_add_pos : 0 < (c.add o).total o' ↔ o' = o ∨ 0 < c.total o' := by
  rw [add]
  by_cases hoo : o' = o
  · simp [hoo]
  · simp [hoo]

theorem finished_count : (c.count o).finished o = decide (c.started o = true ∧ c.counted o + 1 = c.total o) := by
  rw [finished, count_self, Bool.decide_and, Bool.decide_eq_true]
  rfl

theorem finished_of_lt (h : c.counted o < c.total o) : c.finished o = false := by
  rw [finished, decide_eq_false h.ne, Bool.and_false]

end Counts

structure HostSemaphore.Tracks (h : HostSemaphore) (c : Counts) : Prop where
  mem : ∀ o, o ∈ h.stepInfo.keys ↔ 0 < c.total o
  nSteps : ∀ o i, h.stepInfo.find? o = some i → (h.signals i).2 = c.total o
  curStep : ∀ o i, h.stepInfo.find? o = some i → (h.signals i).1 = c.hostStep o

structure DeviceSemaphore.Tracks (d : DeviceSemaphore) (c : Counts) : Prop where
  mem : ∀ o, o ∈ d.opInfo.keys ↔ 0 < c.total o
  size_le : d.opInfo.size ≤ opsPerSemaphore
  nSteps : ∀ o i, d.opInfo.find? o = some i → d.signals (nStepsOffset + i) = c.total o
  curStep : ∀ o i, d.opInfo.find? o = some i → d.signals i = c.deviceStep o
  counter : d.getCounter = d.opInfo.keys.countP fun o => !c.finished o

namespace HostSemaphore.Tracks
variable {h h' : HostSemaphore} {c c' : Counts} {o : Int} {i : Nat}

theorem find?_of_total (ht : h.Tracks c) (ho : 0 < c.total o) : ∃ i, h.stepInfo.find? o = some i :=
  ⟨_, KeyTable.find?_of_mem ((ht.mem o).2 ho)⟩

theorem zero : init.Tracks .zero where
  mem := by simp [init, Counts.zero]
  nSteps := by simp [init, KeyTable.find?]
  curStep := by simp [init, KeyTable.find?]

section

variable (ht : h.Tracks c)
include ht

theorem congr (htotal : c'.total = c.total) (hstep : ∀ o, 0 < c.total o → c'.hostStep o = c.hostStep o) : h.Tracks c' where
  mem := by
    rw [htotal]
    exact ht.mem
  nSteps := by
    rw [htotal]
    exact ht.nSteps
  curStep := by
    intro o i hi
    rw [hstep o ((ht.mem o).1 (KeyTable.mem_of_find? hi))]
    exact ht.curStep o i hi

theorem setSignal (hi : h.stepInfo.find? o = some i) {signal : Int × Int} (hcur : c'.hostStep o = signal.1)
    (htotal : (c'.total o : Int) = signal.2) (hpos : 0 < c'.total o)
    (hother : ∀ o' ≠ o, c'.hostStep o' = c.hostStep o' ∧ c'.total o' = c.total o') : (h.setSignal i signal).Tracks c' := by
  have hread : ∀ o' i', h.stepInfo.find? o' = some i' → (h.setSignal i signal).signals i' =
      if o' = o then signal else h.signals i' := by
    intro o' i' hi'
    split_ifs with hoo
    · subst hoo
      obtain rfl := some.inj (hi'.symm.trans hi)
      exact update_self ..
    · refine update_of_ne ?_ ..
      intro hii
      subst hii
      exact hoo (KeyTable.find?_inj hi' hi)
  constructor
  · intro o'
    rw [HostSemaphore.setSignal, ht.mem]
    by_cases hoo : o' = o
    · subst hoo
      exact ⟨fun _ => hpos, fun _ => (ht.mem o').1 (KeyTable.mem_of_find? hi)⟩
    · rw [(hother o' hoo).2]
  · intro o' i' hi'
    rw [hread o' i' hi']
    split_ifs with hoo
    · rw [hoo, htotal]
    · rw [(hother o' hoo).2, ht.nSteps o' i' hi']
  · intro o' i' hi'
    rw [hread o' i' hi']
    split_ifs with hoo
    · rw [hoo, hcur]
    · rw [(hother o' hoo).1, ht.curStep o' i' hi']

theorem addSignal (hi : h.stepInfo.find? o = none) (hstep : c.hostStep o = -1) : { h.setSignal h.stepInfo.size (-1, 1) with
      stepInfo := h.stepInfo.add o
      counter := h.counter + 1 : HostSemaphore }.Tracks (c.add o) := by
  have ho := KeyTable.find?_eq_none.1 hi
  have hzero : c.total o = 0 := by
    have := (ht.mem o).not.1 ho
    omega
  have hread : ∀ o' i', (h.stepInfo.add o).find? o' = some i' → (h.setSignal h.stepInfo.size (-1, 1)).signals i' =
      if o' = o then (-1, 1) else h.signals i' := by
    intro o' i' hi'
    rw [KeyTable.find?_add ho] at hi'
    split_ifs at hi' ⊢ with hoo
    · obtain rfl := some.inj hi'
      exact update_self ..
    · exact update_of_ne (KeyTable.find?_lt hi').ne ..
  have hold : ∀ o' i', o' ≠ o → (h.stepInfo.add o).find? o' = some i' → h.stepInfo.find? o' = some i' := by
    intro o' i' hoo hi'
    rwa [KeyTable.find?_add ho, if_neg hoo] at hi'
  constructor
  · intro o'
    rw [KeyTable.mem_add, ht.mem, Counts.add]
    by_cases hoo : o' = o
    · simp [hoo]
    · simp [hoo]
  · intro o' i' hi'
    rw [Counts.add]
    simp only at hi' ⊢
    rw [hread o' i' hi']
    split_ifs with hoo
    · simp [hoo, hzero]
    · rw [update_of_ne hoo, ht.nSteps o' i' (hold o' i' hoo hi')]
  · intro o' i' hi'
    have hsame : (c.add o).hostStep o' = c.hostStep o' := rfl
    rw [hsame]
    rw [hread o' i' hi']
    split_ifs with hoo
    · rw [hoo, hstep]
    · rw [ht.curStep o' i' (hold o' i' hoo hi')]

theorem addCounter (hfrozen : h.frozen = false) (hstep : c.hostStep o = -1) :
    ∃ h', h.addCounter o = some h' ∧ h'.Tracks (c.add o) ∧ h'.frozen = false ∧
      (h.counter = h.stepInfo.size → h'.counter = h'.stepInfo.size) := by
  rw [HostSemaphore.addCounter, hfrozen, if_neg Bool.false_ne_true]
  cases hi : h.stepInfo.find? o with
  | some i =>
    refine ⟨_, rfl, ?_, hfrozen, id⟩
    refine ht.setSignal hi ?_ ?_ ?_ ?_
    · exact (ht.curStep o i hi).symm
    · simp [Counts.add, ht.nSteps o i hi]
    · simp [Counts.add]
    · intro o' hoo
      exact ⟨rfl, update_of_ne hoo ..⟩
  | none =>
    refine ⟨_, rfl, ht.addSignal hi hstep, hfrozen, ?_⟩
    intro hcounter
    rw [KeyTable.size_add (KeyTable.find?_eq_none.1 hi), hcounter, Nat.cast_add_one]

theorem storeStart (ho : 0 < c.total o) (hw : c.waited o = false) : (h.storeStart o).Tracks (c.start o) := by
  obtain ⟨i, hi⟩ := ht.find?_of_total ho
  rw [HostSemaphore.storeStart, hi]
  have hset : (h.setSignal i (0, (h.signals i).2)).Tracks (c.start o) := by
    refine ht.setSignal hi ?_ ?_ ho ?_
    · simp [Counts.hostStep, Counts.start, hw]
    · exact (ht.nSteps o i hi).symm
    · intro o' hoo
      simp [Counts.hostStep, Counts.start, update_of_ne hoo]
  exact ⟨hset.mem, hset.nSteps, hset.curStep⟩

theorem subCounter (ho : 0 < c.total o) : ∃ h', h.subCounter o = some h' ∧ h'.Tracks (c.count o) := by
  obtain ⟨i, hi⟩ := ht.find?_of_total ho
  rw [HostSemaphore.subCounter, hi]
  refine ⟨_, rfl, ?_⟩
  refine ht.setSignal hi ?_ ?_ ho ?_
  · rw [ht.curStep o i hi]
    simp only [Counts.hostStep, Counts.count, update_self]
    omega
  · exact (ht.nSteps o i hi).symm
  · intro o' hoo
    simp [Counts.hostStep, Counts.count, update_of_ne hoo]

theorem seeEnd (ho : 0 < c.total o) (hw : c.waited o = false) : (h.seeEnd o).Tracks (c.wait o) := by
  obtain ⟨i, hi⟩ := ht.find?_of_total ho
  rw [HostSemaphore.seeEnd, hi]
  refine ht.setSignal hi ?_ ?_ ho ?_
  · rw [ht.curStep o i hi]
    simp only [Counts.hostStep, Counts.wait, update_self, hw, Bool.toNat_true, Bool.toNat_false]
    omega
  · exact (ht.nSteps o i hi).symm
  · intro o' hoo
    simp [Counts.hostStep, Counts.wait, update_of_ne hoo]

theorem pollStart (ho : 0 < c.total o) (step : Int) : h.pollStart o step = some (decide (step ≤ c.hostStep o)) := by
  obtain ⟨i, hi⟩ := ht.find?_of_total ho
  rw [HostSemaphore.pollStart, hi, map_some, ht.curStep o i hi]

theorem stepsDone (ho : 0 < c.total o) : h.stepsDone o = decide (c.hostStep o = c.total o) := by
  obtain ⟨i, hi⟩ := ht.find?_of_total ho
  rw [HostSemaphore.stepsDone, hi]
  simp only [ht.curStep o i hi, ht.nSteps o i hi]

theorem signalStart (hw : ∀ o, c.waited o = false) : h.signalStart.Tracks c.startAll := by
  have hloop : ∀ (os : List Int) (h : HostSemaphore) (c : Counts), h.Tracks c → (∀ o, c.waited o = false) →
      (∀ o ∈ os, 0 < c.total o) → (os.foldl HostSemaphore.storeStart h).Tracks (os.foldl Counts.start c) := by
    intro os
    induction os with
    | nil => exact fun h c ht _ _ => ht
    | cons o os ih =>
      intro h c ht hw hos
      exact ih _ _ (ht.storeStart (hos o mem_cons_self) (hw o)) hw fun o' ho' => hos o' (mem_cons_of_mem o ho')
  have hstarted : ∀ (os : List Int) (c : Counts), (os.foldl Counts.start c).total = c.total ∧
      (os.foldl Counts.start c).waited = c.waited ∧
      ∀ o ∈ os, (os.foldl Counts.start c).started o = true ∧ (os.foldl Counts.start c).counted o = 0 := by
    intro os
    induction os using reverseRecOn with
    | nil => exact fun c => ⟨rfl, rfl, by simp⟩
    | append_singleton os o ih =>
      intro c
      obtain ⟨htotal, hwaited, hmem⟩ := ih c
      rw [foldl_append, foldl_cons, foldl_nil]
      refine ⟨htotal, hwaited, ?_⟩
      intro o' ho'
      by_cases hoo : o' = o
      · subst hoo
        exact ⟨update_self .., update_self ..⟩
      · have hold := hmem o' (by grind)
        simpa [Counts.start, update_of_ne hoo] using hold
  obtain ⟨htotal, hwaited, hmem⟩ := hstarted h.stepInfo.keys c
  have hfrozen : { h with frozen := true : HostSemaphore }.Tracks c := ⟨ht.mem, ht.nSteps, ht.curStep⟩
  refine (hloop h.stepInfo.keys _ c hfrozen hw fun o ho => (ht.mem o).1 ho).congr htotal.symm ?_
  intro o ho
  rw [htotal] at ho
  obtain ⟨hs, hc⟩ := hmem o ((ht.mem o).2 ho)
  simp [Counts.hostStep, Counts.startAll, hs, hc, hwaited]

end

end HostSemaphore.Tracks

namespace DeviceSemaphore.Tracks
variable {d d' : DeviceSemaphore} {c c' : Counts} {o : Int} {i : Nat}

theorem find?_of_total (ht : d.Tracks c) (ho : 0 < c.total o) : ∃ i, d.opInfo.find? o = some i :=
  ⟨_, KeyTable.find?_of_mem ((ht.mem o).2 ho)⟩

theorem zero : init.Tracks .zero where
  mem := by simp [init, Counts.zero]
  size_le := by simp [init, KeyTable.size]
  nSteps := by simp [init, KeyTable.find?]
  curStep := by simp [init, KeyTable.find?]
  counter := rfl

section

variable (ht : d.Tracks c)
include ht

theorem congr (htotal : c'.total = c.total) (hstep : ∀ o, 0 < c.total o → c'.deviceStep o = c.deviceStep o)
    (hfinished : ∀ o, 0 < c.total o → c'.finished o = c.finished o) : d.Tracks c' where
  mem := by
    rw [htotal]
    exact ht.mem
  size_le := ht.size_le
  nSteps := by
    rw [htotal]
    exact ht.nSteps
  curStep := by
    intro o i hi
    rw [hstep o ((ht.mem o).1 (KeyTable.mem_of_find? hi))]
    exact ht.curStep o i hi
  counter := by
    rw [ht.counter]
    congr 1
    refine countP_congr fun o ho => ?_
    rw [hfinished o ((ht.mem o).1 ho)]

theorem lt (hi : d.opInfo.find? o = some i) : i < opsPerSemaphore := (KeyTable.find?_lt hi).trans_le ht.size_le

theorem setCurStep (hi : d.opInfo.find? o = some i) {cur : Int} (hcur : c'.deviceStep o = cur) (htotal : c'.total = c.total)
    (hfinished : c'.finished = c.finished) (hother : ∀ o' ≠ o, c'.deviceStep o' = c.deviceStep o') :
    (d.setSignal i cur).Tracks c' := by
  have hlt := ht.lt hi
  constructor
  · rw [htotal]
    exact ht.mem
  · exact ht.size_le
  · intro o' i' hi'
    rw [htotal, ← ht.nSteps o' i' hi']
    exact update_of_ne (by rw [nStepsOffset]; omega) ..
  · intro o' i' hi'
    by_cases hoo : o' = o
    · subst hoo
      obtain rfl := some.inj (hi'.symm.trans hi)
      rw [hcur]
      exact update_self ..
    · have hne : i' ≠ i := by
        intro hii
        subst hii
        exact hoo (KeyTable.find?_inj hi' hi)
      rw [hother o' hoo, ← ht.curStep o' i' hi']
      exact update_of_ne hne ..
  · rw [hfinished]
    exact (update_of_ne (by rw [counterOffset]; omega) ..).trans ht.counter

theorem setCounter {n : Int} (hn : n = d.opInfo.keys.countP fun o => !c'.finished o) (htotal : c'.total = c.total)
    (hstep : c'.deviceStep = c.deviceStep) : (d.setSignal counterOffset n).Tracks c' := by
  have hkeys : (d.setSignal counterOffset n).opInfo = d.opInfo := rfl
  constructor
  · rw [htotal]
    exact ht.mem
  · exact ht.size_le
  · intro o' i' hi'
    have hlt := ht.lt hi'
    rw [htotal, ← ht.nSteps o' i' hi']
    exact update_of_ne (by rw [nStepsOffset, counterOffset]; omega) ..
  · intro o' i' hi'
    have hlt := ht.lt hi'
    rw [hstep, ← ht.curStep o' i' hi']
    exact update_of_ne (by rw [counterOffset]; omega) ..
  · rw [hkeys, ← hn]
    exact update_self counterOffset n d.signals

theorem subCounter (ho : c.counted o < c.total o) : ∃ d', d.subCounter o = some d' ∧ d'.Tracks (c.count o) := by
  have hpos := Nat.zero_lt_of_lt ho
  obtain ⟨i, hi⟩ := ht.find?_of_total hpos
  have hother : ∀ o' ≠ o, (c.count o).finished o' = c.finished o' := by
    intro o' hoo
    rw [Counts.finished, Counts.count_of_ne hoo]
    rfl
  rw [DeviceSemaphore.subCounter, hi, map_some]
  refine ⟨_, rfl, ?_⟩
  rw [ht.curStep o i hi, ht.nSteps o i hi]
  split_ifs with hlast
  · rw [Counts.deviceStep_last ho] at hlast
    refine ht.setCounter ?_ rfl (Counts.deviceStep_count_last hlast.1 hlast.2)
    -- the op id is one of those that are still counted
    have hflip := KeyTable.countP_flip (p := fun o' => !c.finished o')
      (q := fun o' => !(c.count o).finished o') ((ht.mem o).2 hpos) (by simp [Counts.finished_of_lt ho])
      (by simp [Counts.finished_count, hlast]) (fun o' hoo => by rw [hother o' hoo])
    rw [ht.counter, hflip, Nat.cast_add_one, Int.add_sub_cancel]
  · rw [Counts.deviceStep_last ho] at hlast
    refine ht.setCurStep hi (Counts.deviceStep_count ho hlast) rfl ?_ ?_
    · funext o'
      by_cases hoo : o' = o
      · subst hoo
        rw [Counts.finished_count, Counts.finished_of_lt ho, decide_eq_false hlast]
      · exact hother o' hoo
    · intro o' hoo
      simp [Counts.deviceStep, Counts.count, update_of_ne hoo]

theorem storeStart (ho : 0 < c.total o) (hs : c.started o = false) : (d.storeStart o).Tracks (c.start o) := by
  obtain ⟨i, hi⟩ := ht.find?_of_total ho
  rw [DeviceSemaphore.storeStart, hi]
  refine ht.setCurStep hi ?_ rfl ?_ ?_
  · simp [Counts.deviceStep, Counts.start]
  · funext o'
    by_cases hoo : o' = o
    · subst hoo
      simp [Counts.finished, Counts.start, hs, ho.ne]
    · simp [Counts.finished, Counts.start, update_of_ne hoo]
  · intro o' hoo
    simp [Counts.deviceStep, Counts.start, update_of_ne hoo]

theorem signalStart (hs : ∀ o, c.started o = false) : d.signalStart.Tracks c.startAll := by
  constructor
  · exact ht.mem
  · exact ht.size_le
  · intro o' i' hi'
    rw [DeviceSemaphore.signalStart]
    simp only
    rw [if_neg (by rw [nStepsOffset]; omega)]
    exact ht.nSteps o' i' hi'
  · intro o' i' hi'
    rw [DeviceSemaphore.signalStart]
    simp only
    rw [if_pos (ht.lt hi')]
    simp [Counts.deviceStep, Counts.startAll]
  · have hcounter : d.signalStart.getCounter = d.getCounter := by
      have hne : ¬ counterOffset < opsPerSemaphore := by decide
      simp only [getCounter, DeviceSemaphore.signalStart, if_neg hne]
    rw [hcounter, ht.counter]
    congr 1
    refine countP_congr fun o ho => ?_
    have hpos := (ht.mem o).1 ho
    simp [Counts.finished, Counts.startAll, hs, hpos.ne]

theorem addOp (hi : d.opInfo.find? o = some i) (hs : ∀ o, c.started o = false) :
    (d.setSignal (nStepsOffset + i) (d.signals (nStepsOffset + i) + 1)).Tracks (c.add o) := by
  have hlt := ht.lt hi
  have hstep := Counts.deviceStep_add (hs o)
  constructor
  · intro o'
    rw [Counts.total_add_pos, ← ht.mem]
    constructor
    · exact Or.inr
    · rintro (rfl | ho')
      · exact KeyTable.mem_of_find? hi
      · exact ho'
  · exact ht.size_le
  · intro o' i' hi'
    by_cases hoo : o' = o
    · subst hoo
      obtain rfl := some.inj (hi'.symm.trans hi)
      rw [DeviceSemaphore.setSignal, ht.nSteps o' i' hi']
      simp [Counts.add]
    · have hne : nStepsOffset + i' ≠ nStepsOffset + i := by
        intro hii
        obtain rfl := add_left_cancel hii
        exact hoo (KeyTable.find?_inj hi' hi)
      have htotal : (c.add o).total o' = c.total o' := update_of_ne hoo ..
      rw [htotal, ← ht.nSteps o' i' hi']
      exact update_of_ne hne ..
  · intro o' i' hi'
    have hlt' := ht.lt hi'
    rw [hstep, ← ht.curStep o' i' hi']
    exact update_of_ne (by rw [nStepsOffset]; omega) ..
  · have hcounter := ht.counter
    simp only [Counts.finished_of_started (hs _)] at hcounter
    have hfinished : ∀ o', (c.add o).finished o' = false := fun o' => Counts.finished_of_started (hs o')
    simp only [hfinished]
    refine Eq.trans ?_ hcounter
    exact update_of_ne (by rw [nStepsOffset, counterOffset]; omega) ..

theorem addOpId (hi : d.opInfo.find? o = none) (hs : ∀ o, c.started o = false) (hc : c.counted o = 0)
    (hroom : d.opInfo.size < opsPerSemaphore) : (d.takeSignals o).Tracks (c.add o) := by
  have ho := KeyTable.find?_eq_none.1 hi
  have hzero : c.total o = 0 := by
    have := (ht.mem o).not.1 ho
    omega
  have hold : ∀ o' i', o' ≠ o → (d.opInfo.add o).find? o' = some i' → d.opInfo.find? o' = some i' := by
    intro o' i' hoo hi'
    rwa [KeyTable.find?_add ho, if_neg hoo] at hi'
  have hnew : ∀ i', (d.opInfo.add o).find? o = some i' → i' = d.opInfo.size := by
    intro i' hi'
    rw [KeyTable.find?_add ho, if_pos rfl] at hi'
    exact (some.inj hi').symm
  constructor
  · intro o'
    rw [takeSignals_opInfo, KeyTable.mem_add, Counts.total_add_pos, ht.mem]
  · rw [takeSignals_opInfo, KeyTable.size_add ho]
    exact hroom
  · intro o' i' hi'
    simp only [takeSignals, DeviceSemaphore.setSignal, Counts.add] at hi' ⊢
    by_cases hoo : o' = o
    · subst hoo
      rw [hnew i' hi', update_of_ne (by rw [nStepsOffset, counterOffset]; omega), update_self,
        update_self, hzero]
      rfl
    · have hi' := hold o' i' hoo hi'
      have hlt' := KeyTable.find?_lt hi'
      rw [update_of_ne (by rw [nStepsOffset, counterOffset]; omega), update_of_ne (by omega),
        update_of_ne (by rw [nStepsOffset]; omega), update_of_ne hoo, ht.nSteps o' i' hi']
  · intro o' i' hi'
    rw [Counts.deviceStep_add (hs o)]
    simp only [takeSignals, DeviceSemaphore.setSignal] at hi' ⊢
    by_cases hoo : o' = o
    · subst hoo
      rw [hnew i' hi', update_of_ne (by rw [counterOffset]; omega),
        update_of_ne (by rw [nStepsOffset, opsPerSemaphore]; omega), update_self, Counts.deviceStep, hs, hc]
      rfl
    · have hi' := hold o' i' hoo hi'
      have hlt' := KeyTable.find?_lt hi'
      rw [update_of_ne (by rw [counterOffset]; omega),
        update_of_ne (by rw [nStepsOffset]; omega), update_of_ne hlt'.ne, ht.curStep o' i' hi']
  · have hcounter := ht.counter
    simp only [Counts.finished_of_started (hs _)] at hcounter
    have hfinished : ∀ o', (c.add o).finished o' = false := fun o' => Counts.finished_of_started (hs o')
    have hkeys : (d.takeSignals o).opInfo.keys = d.opInfo.keys ++ [o] := KeyTable.keys_add ho
    have hkept : ((d.setSignal d.opInfo.size (-1)).setSignal (nStepsOffset + d.opInfo.size) 1).getCounter =
        d.getCounter := by
      simp only [getCounter, DeviceSemaphore.setSignal]
      rw [update_of_ne (by rw [nStepsOffset, counterOffset]; omega),
        update_of_ne (by rw [counterOffset]; omega)]
    have hset : (d.takeSignals o).getCounter = d.getCounter + 1 := by
      rw [← hkept]
      simp only [getCounter, takeSignals, DeviceSemaphore.setSignal, update_self]
    rw [hset, hcounter, hkeys, countP_append]
    simp [hfinished]

theorem addCounter (hs : ∀ o, c.started o = false) (hc : c.counted o = 0) (hroom : (d.opInfo.add o).size ≤ opsPerSemaphore) :
    ∃ d', d.addCounter o = some d' ∧ d'.Tracks (c.add o) ∧ d'.opInfo = d.opInfo.add o := by
  rw [DeviceSemaphore.addCounter]
  cases hi : d.opInfo.find? o with
  | some i => exact ⟨_, rfl, ht.addOp hi hs, (KeyTable.add_of_mem (KeyTable.mem_of_find? hi)).symm⟩
  | none =>
    have ho := KeyTable.find?_eq_none.1 hi
    rw [KeyTable.size_add ho] at hroom
    rw [if_pos (Nat.lt_of_succ_le hroom)]
    exact ⟨_, rfl, ht.addOpId hi hs hc hroom, rfl⟩

theorem pollStart (ho : 0 < c.total o) (step : Int) : d.pollStart o step = some (decide (step ≤ c.deviceStep o)) := by
  obtain ⟨i, hi⟩ := ht.find?_of_total ho
  rw [DeviceSemaphore.pollStart, hi, map_some, ht.curStep o i hi]

end

end DeviceSemaphore.Tracks

/-! ## The two semaphores of one group -/

/-- What an operation of a group asks of its semaphore. -/
structure SemaphoreOp where
  opId : Int
  step : Int
  deriving DecidableEq, Repr

def HostSemaphore.addCounters (opIds : List Int) : Option HostSemaphore := opIds.foldlM addCounter init

def DeviceSemaphore.addCounters (opIds : List Int) : Option DeviceSemaphore := opIds.foldlM addCounter init

def HostSemaphore.subCounters (h : HostSemaphore) (opIds : List Int) : Option HostSemaphore := opIds.foldlM subCounter h

def DeviceSemaphore.subCounters (d : DeviceSemaphore) (opIds : List Int) : Option DeviceSemaphore :=
  opIds.foldlM subCounter d

def opIdAt (ops : List SemaphoreOp) (n : Nat) : Int := (ops.map SemaphoreOp.opId).getD n 0

def stepAt (ops : List SemaphoreOp) (n : Nat) : Int := (ops.map SemaphoreOp.step).getD n 0

/-- Operations that count themselves off in an order, each when `pollStart` lets it. -/
def HostSemaphore.Respects (ops : List SemaphoreOp) : HostSemaphore → List Nat → Prop
  | _, [] => True
  | h, n :: order => h.pollStart (opIdAt ops n) (stepAt ops n) = some true ∧
      ∃ h', h.subCounter (opIdAt ops n) = some h' ∧ Respects ops h' order

/-- `pollStart` answers alike for the operations that have not counted themselves off. -/
def PollAlike (ops : List SemaphoreOp) (order : List Nat) (h : HostSemaphore) (d : DeviceSemaphore) : Prop :=
  ∀ n < ops.length, n ∉ order → ∃ answer, h.pollStart (opIdAt ops n) (stepAt ops n) = some answer ∧
      d.pollStart (opIdAt ops n) (stepAt ops n) = some answer

/-- The device semaphore refines the host semaphore in a group: no assertion fails, whatever the order in which the
operations count themselves off after the start, `pollStart` answers alike and the end is reached at the same time. -/
def Refines (ops : List SemaphoreOp) : Prop :=
  ∃ h d, HostSemaphore.addCounters (ops.map SemaphoreOp.opId) = some h ∧
    DeviceSemaphore.addCounters (ops.map SemaphoreOp.opId) = some d ∧ PollAlike ops [] h d ∧
    ∀ order : List Nat, order.Nodup → (∀ n ∈ order, n < ops.length) → h.signalStart.Respects ops order →
      ∃ h' d', h.signalStart.subCounters (order.map (opIdAt ops)) = some h' ∧
        d.signalStart.subCounters (order.map (opIdAt ops)) = some d' ∧ PollAlike ops order h' d' ∧
        (h'.Ended ↔ d'.getCounter = 0)

section Refinement
variable {ops : List SemaphoreOp} {opIds : List Int} {done order : List Nat} {n : Nat} {o : Int}

def Counts.launched (opIds : List Int) : Counts := { Counts.zero with total := fun o => opIds.count o }

def Counts.running (ops : List SemaphoreOp) (done : List Nat) : Counts where
  total := fun o => (ops.map SemaphoreOp.opId).count o
  counted := fun o => (done.map (opIdAt ops)).count o
  started := fun _ => true
  waited := fun _ => false

theorem Counts.launched_concat (opIds : List Int) (o : Int) : launched (opIds ++ [o]) = (launched opIds).add o := by
  have htotal : (fun o' => (opIds ++ [o]).count o') =
      update (fun o' => opIds.count o') o (opIds.count o + 1) := by
    funext o'
    by_cases hoo : o' = o
    · simp [hoo]
    · simp [hoo, Ne.symm hoo]
  rw [launched, add, htotal]
  rfl

theorem Counts.running_concat (ops : List SemaphoreOp) (done : List Nat) (n : Nat) :
    running ops (done ++ [n]) = (running ops done).count (opIdAt ops n) := by
  have hcounted : (fun o => ((done ++ [n]).map (opIdAt ops)).count o) =
      update (fun o => (done.map (opIdAt ops)).count o) (opIdAt ops n)
        ((done.map (opIdAt ops)).count (opIdAt ops n) + 1) := by
    funext o'
    by_cases hoo : o' = opIdAt ops n
    · simp [hoo]
    · simp [hoo, Ne.symm hoo]
  rw [running, count, hcounted]
  rfl

theorem map_opIdAt (ops : List SemaphoreOp) : (range ops.length).map (opIdAt ops) = ops.map SemaphoreOp.opId := by
  apply ext_getElem
  · simp
  · intro i h1 h2
    simp only [length_map] at h2
    simp [opIdAt, h2]

theorem counted_lt (hnd : (done ++ [n]).Nodup) (hlt : ∀ i ∈ done ++ [n], i < ops.length) :
    (Counts.running ops done).counted (opIdAt ops n) < (Counts.running ops done).total (opIdAt ops n) := by
  obtain ⟨l, hperm, hsub⟩ := subperm_of_subset hnd fun i hi => mem_range.2 (hlt i hi)
  have hle := (hsub.map (opIdAt ops)).count_le (opIdAt ops n)
  rw [(hperm.map (opIdAt ops)).count_eq, map_opIdAt, map_append, count_append, map_singleton, count_singleton_self] at hle
  exact hle

theorem HostSemaphore.addCounters_tracks (opIds : List Int) :
    ∃ h, addCounters opIds = some h ∧ h.Tracks (.launched opIds) ∧ h.frozen = false ∧ h.counter = h.stepInfo.size := by
  induction opIds using reverseRecOn with
  | nil => exact ⟨_, rfl, .zero, rfl, rfl⟩
  | append_singleton opIds o ih =>
    obtain ⟨h, hadd, ht, hfrozen, hcounter⟩ := ih
    obtain ⟨h', hadd', ht', hfrozen', hcounter'⟩ := ht.addCounter hfrozen (o := o) rfl
    refine ⟨h', ?_, ?_, hfrozen', hcounter' hcounter⟩
    · rw [addCounters, List.foldlM_append, ← addCounters, hadd]
      simp [hadd']
    · rw [Counts.launched_concat]
      exact ht'

theorem DeviceSemaphore.addCounters_tracks (hroom : opIds.toFinset.card ≤ opsPerSemaphore) :
    ∃ d, addCounters opIds = some d ∧ d.Tracks (.launched opIds) ∧ d.opInfo = KeyTable.empty.addAll opIds := by
  induction opIds using reverseRecOn with
  | nil => exact ⟨_, rfl, .zero, rfl⟩
  | append_singleton opIds o ih =>
    have hall : (KeyTable.empty.addAll opIds).add o = KeyTable.empty.addAll (opIds ++ [o]) := by simp [KeyTable.addAll]
    have hle : opIds.toFinset.card ≤ (opIds ++ [o]).toFinset.card := Finset.card_le_card (by simp)
    obtain ⟨d, hadd, ht, hinfo⟩ := ih (hle.trans hroom)
    have hsize : (d.opInfo.add o).size ≤ opsPerSemaphore := by
      rw [hinfo, hall, KeyTable.size_eq_card, KeyTable.toFinset_addAll]
      simpa using hroom
    obtain ⟨d', hadd', ht', hinfo'⟩ := ht.addCounter (o := o) (fun _ => rfl) rfl hsize
    refine ⟨d', ?_, ?_, ?_⟩
    · rw [addCounters, List.foldlM_append, ← addCounters, hadd]
      simp [hadd']
    · rw [Counts.launched_concat]
      exact ht'
    · rw [hinfo', hinfo, hall]

variable {d : DeviceSemaphore}

theorem DeviceSemaphore.addCounter_eq_some {d' : DeviceSemaphore} (h : d.addCounter o = some d')
    (hsize : d.opInfo.size ≤ opsPerSemaphore) :
    d'.opInfo = d.opInfo.add o ∧ d'.opInfo.size ≤ opsPerSemaphore := by
  rw [addCounter] at h
  cases hi : d.opInfo.find? o with
  | some i =>
    rw [hi] at h
    obtain rfl := some.inj h
    exact ⟨(KeyTable.add_of_mem (KeyTable.mem_of_find? hi)).symm, hsize⟩
  | none =>
    rw [hi] at h
    split_ifs at h with hroom
    obtain rfl := some.inj h
    refine ⟨rfl, ?_⟩
    rw [takeSignals_opInfo, KeyTable.size_add (KeyTable.find?_eq_none.1 hi)]
    exact hroom

theorem DeviceSemaphore.card_le_of_addCounters (h : addCounters opIds = some d) : opIds.toFinset.card ≤ opsPerSemaphore := by
  have hinfo : d.opInfo = KeyTable.empty.addAll opIds ∧ d.opInfo.size ≤ opsPerSemaphore := by
    induction opIds using reverseRecOn generalizing d with
    | nil =>
      obtain rfl := some.inj h
      exact ⟨rfl, Nat.zero_le _⟩
    | append_singleton opIds o ih =>
      rw [addCounters, List.foldlM_append, ← addCounters] at h
      obtain ⟨d₁, h₁, hlast⟩ := bind_eq_some_iff.1 h
      obtain ⟨hinfo, hsize⟩ := ih h₁
      have hadd : d₁.addCounter o = some d := by simpa using hlast
      obtain ⟨hinfo', hsize'⟩ := addCounter_eq_some hadd hsize
      refine ⟨?_, hsize'⟩
      rw [hinfo', hinfo]
      simp [KeyTable.addAll]
  have hcard := KeyTable.toFinset_addAll (m := KeyTable.empty) opIds
  rw [KeyTable.keys_empty, toFinset_nil, Finset.empty_union] at hcard
  rw [← hcard, ← KeyTable.size_eq_card, ← hinfo.1]
  exact hinfo.2

theorem subCounters_tracks {h : HostSemaphore} {d : DeviceSemaphore} (hnd : (done ++ order).Nodup)
    (hlt : ∀ i ∈ done ++ order, i < ops.length) (hh : h.Tracks (.running ops done)) (hd : d.Tracks (.running ops done)) :
    ∃ h' d', h.subCounters (order.map (opIdAt ops)) = some h' ∧ d.subCounters (order.map (opIdAt ops)) = some d' ∧
      h'.Tracks (.running ops (done ++ order)) ∧ d'.Tracks (.running ops (done ++ order)) := by
  induction order generalizing done h d with
  | nil =>
    rw [append_nil]
    exact ⟨h, d, rfl, rfl, hh, hd⟩
  | cons n order ih =>
    have hassoc : done ++ n :: order = done ++ [n] ++ order := by simp
    rw [hassoc] at hnd hlt ⊢
    have hcounted := counted_lt (nodup_append.1 hnd).1 fun i hi => hlt i (mem_append_left _ hi)
    obtain ⟨h₁, hsub, hh₁⟩ := hh.subCounter (Nat.zero_lt_of_lt hcounted)
    obtain ⟨d₁, hsub', hd₁⟩ := hd.subCounter hcounted
    rw [← Counts.running_concat] at hh₁ hd₁
    obtain ⟨h', d', hrun, hrun', htracks⟩ := ih hnd hlt hh₁ hd₁
    refine ⟨h', d', ?_, ?_, htracks⟩
    · simpa [HostSemaphore.subCounters, hsub] using hrun
    · simpa [DeviceSemaphore.subCounters, hsub'] using hrun'

theorem Counts.deviceStep_eq_hostStep {c : Counts} (h : c.counted o < c.total o) (hw : c.waited o = false) :
    c.deviceStep o = c.hostStep o := by
  rw [deviceStep, hostStep, hw]
  cases c.started o with
  | true =>
    simp
    omega
  | false => simp

section

variable {h : HostSemaphore} {c : Counts} (hh : h.Tracks c) (hd : d.Tracks c) (hw : ∀ o, c.waited o = false)
include hh hd hw

theorem pollAlike_of_tracks (hc : ∀ n < ops.length, n ∉ order → c.counted (opIdAt ops n) < c.total (opIdAt ops n)) :
    PollAlike ops order h d := by
  intro n hn hmem
  have hcounted := hc n hn hmem
  have hpos := Nat.zero_lt_of_lt hcounted
  refine ⟨_, hh.pollStart hpos _, ?_⟩
  rw [hd.pollStart hpos, Counts.deviceStep_eq_hostStep hcounted (hw _)]

theorem ended_iff_of_tracks (hs : ∀ o, c.started o = true) : h.Ended ↔ d.getCounter = 0 := by
  have hkeys : ∀ o, o ∈ h.stepInfo.keys ↔ o ∈ d.opInfo.keys := fun o => (hh.mem o).trans (hd.mem o).symm
  have hstep : ∀ o, c.hostStep o = c.counted o := by
    intro o
    simp [Counts.hostStep, hw, hs]
  rw [hd.counter, Int.natCast_eq_zero, countP_eq_zero, HostSemaphore.Ended]
  refine forall_congr' fun o => ?_
  rw [hkeys]
  refine imp_congr_right fun ho => ?_
  rw [hh.stepsDone ((hd.mem o).1 ho), hstep, Counts.finished, hs]
  simp

end

/-- The device semaphore does what the host semaphore does if and only if the group has at most 64 op ids. -/
theorem device_refines_iff (ops : List SemaphoreOp) :
    Refines ops ↔ (ops.map SemaphoreOp.opId).toFinset.card ≤ opsPerSemaphore := by
  constructor
  · rintro ⟨h, d, -, hd, -⟩
    exact DeviceSemaphore.card_le_of_addCounters hd
  · intro hroom
    obtain ⟨h, hadd, hh, -⟩ := HostSemaphore.addCounters_tracks (ops.map SemaphoreOp.opId)
    obtain ⟨d, hadd', hd, -⟩ := DeviceSemaphore.addCounters_tracks hroom
    have hunfinished : ∀ order : List Nat, order.Nodup → (∀ n ∈ order, n < ops.length) → ∀ n < ops.length, n ∉ order →
        (Counts.running ops order).counted (opIdAt ops n) < (Counts.running ops order).total (opIdAt ops n) := by
      intro order hnd hlt n hn hmem
      refine counted_lt ?_ ?_
      · rw [nodup_append]
        exact ⟨hnd, nodup_singleton n, by grind⟩
      · intro i hi
        rcases mem_append.1 hi with hi | hi
        · exact hlt i hi
        · rwa [mem_singleton.1 hi]
    refine ⟨h, d, hadd, hadd', ?_, ?_⟩
    · exact pollAlike_of_tracks hh hd (fun _ => rfl) (hunfinished [] nodup_nil (by simp))
    · intro order hnd hlt _
      have hh₀ := hh.signalStart fun _ => rfl
      have hd₀ := hd.signalStart fun _ => rfl
      obtain ⟨h', d', hrun, hrun', hh', hd'⟩ := @subCounters_tracks ops [] order _ _ hnd hlt hh₀ hd₀
      refine ⟨h', d', hrun, hrun', ?_, ?_⟩
      · exact pollAlike_of_tracks hh' hd' (fun _ => rfl) (hunfinished order hnd hlt)
      · exact ended_iff_of_tracks hh' hd' (fun _ => rfl) fun _ => rfl

end Refinement

/-! ## A group with too many op ids -/

def Answers.fine : Answers where
  callocTask := .success
  callocJob := fun _ => .success
  created := fun _ => true
  preconnect := fun _ => .success
  newProxyOp := fun _ => .success
  prepareProxyOp := fun _ => .success
  eventRecord := fun _ => .success
  streamWaitEvent := fun _ => .success
  saveOp := fun _ => .success
  launchFunc := .success

def pairThread : Thread where
  groupDepth := 0
  groupCommHead := []
  groupCommPreconnectHead := []
  asyncJobs := []
  comms := fun _ => ⟨0, 2, 2, [⟨0, 0⟩, ⟨1, 1⟩], fun _ _ _ => true, fun _ _ _ => true, fun _ _ => [], 0, false, false⟩
  saved := []

/-- A group of `n` sends to rank 1. -/
def sendGroup (disable : Bool) (n : Nat) : Result × Thread :=
  groupEnd disable .fine ((range n).foldl
    (fun t i => (heteroSend disable .fine ⟨0, 1, 0, i + 1, 1, 0, 7, noOpId, -1⟩ t).2) (groupStart pairThread))

def semaphoreOps (saved : List (Nat × ProxyOp)) : List SemaphoreOp := saved.map fun op => ⟨op.2.opId, op.2.step⟩

/-- Without the schedule every operation has an op id of its own, and 65 sends are too many for the device semaphore. -/
theorem device_refines_counterexample :
    (sendGroup true 65).1 = .success ∧ ¬ Refines (semaphoreOps (sendGroup true 65).2.saved) := by
  have hops : semaphoreOps (sendGroup true 65).2.saved = (range 65).map fun n => ⟨(n : Int), 0⟩ := by decide +kernel
  refine ⟨by decide +kernel, ?_⟩
  rintro ⟨h, d, -, hd, -⟩
  have hcard := DeviceSemaphore.card_le_of_addCounters hd
  revert hcard
  decide +kernel

end FlagCX.Group
