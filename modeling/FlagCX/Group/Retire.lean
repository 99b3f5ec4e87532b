import FlagCX.Lib.Guarded
import FlagCX.Group.Semaphore

/-!
# The end of a group (`flagcxProxyRetireFailedOp`, `cpuAsyncKernel`, `asyncKernel`)

After a launch the start signal of the stream, the progress of the proxy and an asynchronous error interleave. An operation
counts itself off when it completes or when it is retired because of an error.

* `Launched`, `Launched.step` : a launched group and what can happen to it.
* `Sound`            : the semaphore holds the operations that have called `subCounter`.
* `launched_ends`    : every operation calls `subCounter` once, and when all have ended the stream is released, in runs in
  which no operation counts itself off before its start.
-/

namespace FlagCX.Group
open Lib List Function Option

inductive Semaphore where
  | host (h : HostSemaphore)
  | device (d : DeviceSemaphore)

namespace Semaphore

def addCounters (device : Bool) (opIds : List Int) : Option Semaphore :=
  if device then (DeviceSemaphore.addCounters opIds).map .device else (HostSemaphore.addCounters opIds).map .host

def subCounter (opId : Int) : Semaphore → Option Semaphore
  | host h => (h.subCounter opId).map host
  | device d => (d.subCounter opId).map device

def pollStart (opId step : Int) : Semaphore → Option Bool
  | host h => h.pollStart opId step
  | device d => d.pollStart opId step

def pollEnd : Semaphore → Bool
  | host h => h.pollEnd
  | device d => d.pollEnd

def storeStart (opId : Int) : Semaphore → Semaphore
  | host h => host (h.storeStart opId)
  | device d => device (d.storeStart opId)

def ended (opId : Int) : Semaphore → Bool
  | host h => h.stepsDone opId
  | device d => d.pollEnd

def Tracks (c : Counts) : Semaphore → Prop
  | host h => h.Tracks c
  | device d => d.Tracks c

end Semaphore

/-! ## A launched group -/

/-- A launched group: which operations are done, which are still queued, whether an error is recorded, the op ids to be
started, the calls of `subCounter`, the op ids `wait` has counted, and whether the stream goes on. -/
structure Launched where
  semaphore : Semaphore
  done : Nat → Bool
  queued : Nat → Bool
  failed : Bool
  unstarted : List Int
  calls : List Nat
  waited : List Int
  released : Bool

/-- What can happen to a group; `see` is an op id that `wait` counts, `release` the return of the host function or the kernel.
-/
inductive Event where
  | fail
  | store (opId : Int)
  | complete (n : Nat)
  | retire (n : Nat)
  | remove (n : Nat)
  | see (opId : Int)
  | release
  deriving DecidableEq, Repr

def launch (device : Bool) (ops : List SemaphoreOp) : Option Launched :=
  (Semaphore.addCounters device (ops.map SemaphoreOp.opId)).map fun semaphore =>
    ⟨semaphore, fun _ => false, fun _ => true, false, (ops.map SemaphoreOp.opId).dedup, [], [], false⟩

section
variable (ops : List SemaphoreOp)

/-- Operation `n` counts itself off. -/
def Launched.finish (s : Launched) (n : Nat) : Option Launched :=
  (s.semaphore.subCounter (opIdAt ops n)).map fun semaphore =>
    { s with semaphore := semaphore, done := update s.done n true, calls := s.calls ++ [n] }

/-- Operation `n` leaves its queue. -/
def Launched.dequeue (s : Launched) (n : Nat) : Launched := { s with queued := update s.queued n false }

/-- The part of `flagcxProxyRetireFailedOp` that concerns the semaphore. -/
def Launched.retireFailedOp (s : Launched) (n : Nat) : Option Launched :=
  (if s.done n then some s else s.finish ops n).map fun s => s.dequeue n

/-- A comparison of `wait` that succeeds. -/
def Launched.seeEnd (s : Launched) (opId : Int) : Option Launched :=
  match s.semaphore with
  | .host h => if h.stepsDone opId then some { s with semaphore := .host (h.seeEnd opId), waited := opId :: s.waited } else none
  | .device _ => none

/-- The loop of `wait` or of the kernel ends. -/
def Launched.release (s : Launched) : Option Launched :=
  match s.semaphore with
  | .host h =>
    if h.counter ≤ s.waited.length then some { s with semaphore := .host h.endWait, released := true } else none
  | .device d => if d.getCounter ≤ 0 then some { s with released := true } else none

def Launched.step (s : Launched) : Event → Option Launched
  | .fail => some { s with failed := true }
  | .store o =>
    if o ∈ s.unstarted then
      some { s with semaphore := s.semaphore.storeStart o, unstarted := s.unstarted.erase o }
    else none
  | .complete n =>
    if n < ops.length ∧ s.queued n ∧ ¬ s.done n ∧ s.semaphore.pollStart (opIdAt ops n) (stepAt ops n) = some true then
      s.finish ops n
    else none
  | .retire n => if n < ops.length ∧ s.queued n ∧ s.failed then s.retireFailedOp ops n else none
  | .remove n => if n < ops.length ∧ s.queued n ∧ s.done n ∧ s.semaphore.pollEnd then some (s.dequeue n) else none
  | .see o => if s.unstarted = [] ∧ s.released = false then s.seeEnd o else none
  | .release => if s.unstarted = [] ∧ s.released = false then s.release else none

/-- No operation counts itself off before its start is stored. -/
def Launched.StartedFirst (s : Launched) : Event → Prop
  | .complete n | .retire n => s.done n = false → opIdAt ops n ∉ s.unstarted
  | _ => True

end

/-! ## The invariant -/

namespace Semaphore
variable {m m' : Semaphore} {c : Counts} {o : Int}

def Counting : Semaphore → Prop
  | host h => h.counter = h.stepInfo.size
  | device _ => True

theorem Tracks.congr {c' : Counts} (ht : m.Tracks c) (htotal : c'.total = c.total) (hcounted : c'.counted = c.counted)
    (hwaited : c'.waited = c.waited) (hstarted : ∀ o, 0 < c.total o → c'.started o = c.started o) : m.Tracks c' := by
  cases m with
  | host h =>
    refine HostSemaphore.Tracks.congr ht htotal fun o ho => ?_
    rw [Counts.hostStep, Counts.hostStep, hcounted, hwaited, hstarted o ho]
  | device d =>
    refine DeviceSemaphore.Tracks.congr ht htotal (fun o ho => ?_) fun o ho => ?_
    · rw [Counts.deviceStep, Counts.deviceStep, hcounted, htotal, hstarted o ho]
    · rw [Counts.finished, Counts.finished, hcounted, htotal, hstarted o ho]

theorem Tracks.subCounter (ht : m.Tracks c) (ho : c.counted o < c.total o) :
    ∃ m', m.subCounter o = some m' ∧ m'.Tracks (c.count o) := by
  cases m with
  | host h =>
    obtain ⟨h', hsub, hh⟩ := HostSemaphore.Tracks.subCounter ht (Nat.zero_lt_of_lt ho)
    exact ⟨.host h', by rw [Semaphore.subCounter, hsub, map_some], hh⟩
  | device d =>
    obtain ⟨d', hsub, hd⟩ := DeviceSemaphore.Tracks.subCounter ht ho
    exact ⟨.device d', by rw [Semaphore.subCounter, hsub, map_some], hd⟩

theorem Tracks.storeStart (ht : m.Tracks c) (ho : 0 < c.total o) (hw : c.waited o = false) (hs : c.started o = false) :
    (m.storeStart o).Tracks (c.start o) := by
  cases m with
  | host h => exact HostSemaphore.Tracks.storeStart ht ho hw
  | device d => exact DeviceSemaphore.Tracks.storeStart ht ho hs

theorem Counting.subCounter (hm : m.Counting) (h : m.subCounter o = some m') : m'.Counting := by
  cases m with
  | host s =>
    obtain ⟨s', hsub, rfl⟩ := map_eq_some_iff.1 h
    obtain ⟨hinfo, hcounter⟩ := HostSemaphore.subCounter_keeps hsub
    rw [Counting, hinfo, hcounter]
    exact hm
  | device d =>
    obtain ⟨d', -, rfl⟩ := map_eq_some_iff.1 h
    trivial

theorem Counting.storeStart (hm : m.Counting) (o : Int) : (m.storeStart o).Counting := by
  cases m with
  | host s =>
    obtain ⟨hinfo, hcounter⟩ := s.storeStart_keeps o
    rw [Semaphore.storeStart, Counting, hinfo, hcounter]
    exact hm
  | device d => trivial

end Semaphore

/-- The counts of a group: every call of `subCounter` is one that counts. -/
def Launched.counts (ops : List SemaphoreOp) (s : Launched) : Counts :=
  { Counts.running ops s.calls with
    started := fun o => decide (o ∉ s.unstarted)
    waited := fun o => decide (o ∈ s.waited) }

/-- The semaphore holds the operations that have called `subCounter`, and these are the ones that are done. -/
structure Sound (ops : List SemaphoreOp) (s : Launched) : Prop where
  nodup : s.calls.Nodup
  mem : ∀ n, n ∈ s.calls ↔ n < ops.length ∧ s.done n = true
  tracks : s.semaphore.Tracks (s.counts ops)
  unstarted_nodup : s.unstarted.Nodup
  unstarted_mem : ∀ o ∈ s.unstarted, o ∈ ops.map SemaphoreOp.opId
  fresh : ∀ o ∈ s.unstarted, ∀ n ∈ s.calls, opIdAt ops n ≠ o
  waited_nodup : s.waited.Nodup
  waited : ∀ o ∈ s.waited, s.unstarted = [] ∧ (s.counts ops).counted o = (s.counts ops).total o
  counting : s.released = false → s.semaphore.Counting

variable {h : HostSemaphore}

namespace Sound
variable {ops : List SemaphoreOp} {s s' : Launched} {n : Nat} {o : Int}

theorem total_pos : 0 < (s.counts ops).total o ↔ o ∈ ops.map SemaphoreOp.opId := count_pos_iff

theorem counted_lt (hs : Sound ops s) (hn : n < ops.length) (hdone : s.done n = false) :
    (s.counts ops).counted (opIdAt ops n) < (s.counts ops).total (opIdAt ops n) := by
  have hnotMem : n ∉ s.calls := by
    rw [hs.mem, hdone]
    simp
  refine @Group.counted_lt ops s.calls n ?_ ?_
  · rw [nodup_append]
    exact ⟨hs.nodup, nodup_singleton n, by grind⟩
  · intro i hi
    rcases mem_append.1 hi with hi | hi
    · exact ((hs.mem i).1 hi).1
    · rwa [mem_singleton.1 hi]

section

variable (hs : Sound ops s)
include hs

theorem counted_eq (hdone : ∀ n < ops.length, s.done n = true) (o : Int) :
    (s.counts ops).counted o = (s.counts ops).total o := by
  have hperm : s.calls.Perm (range ops.length) := by
    rw [perm_ext_iff_of_nodup hs.nodup nodup_range]
    intro n
    rw [hs.mem, mem_range]
    exact ⟨And.left, fun hn => ⟨hn, hdone n hn⟩⟩
  have hcount := (hperm.map (opIdAt ops)).count_eq o
  rwa [map_opIdAt] at hcount

theorem finish (hn : n < ops.length) (hdone : s.done n = false) (hstart : opIdAt ops n ∉ s.unstarted) :
    ∃ s', s.finish ops n = some s' ∧ Sound ops s' := by
  have hcounted := hs.counted_lt hn hdone
  obtain ⟨m, hsub, hm⟩ := hs.tracks.subCounter hcounted
  have hnotMem : n ∉ s.calls := by
    rw [hs.mem, hdone]
    simp
  refine ⟨_, by rw [Launched.finish, hsub, map_some], ?_⟩
  have hcounts : ({ s with semaphore := m, done := update s.done n true, calls := s.calls ++ [n] } :
      Launched).counts ops = (s.counts ops).count (opIdAt ops n) := by
    have hrunning := Counts.running_concat ops s.calls n
    rw [Launched.counts, hrunning]
    rfl
  constructor
  · rw [nodup_append]
    exact ⟨hs.nodup, nodup_singleton n, by grind⟩
  · intro i
    rw [mem_append, hs.mem, mem_singleton]
    by_cases hi : i = n
    · simp [hi, hn]
    · simp [hi]
  · rw [hcounts]
    exact hm
  · exact hs.unstarted_nodup
  · exact hs.unstarted_mem
  · intro o ho i hi
    rcases mem_append.1 hi with hi | hi
    · exact hs.fresh o ho i hi
    · rw [mem_singleton.1 hi]
      rintro rfl
      exact hstart ho
  · exact hs.waited_nodup
  · intro o ho
    obtain ⟨hunstarted, heq⟩ := hs.waited o ho
    refine ⟨hunstarted, ?_⟩
    have hne : o ≠ opIdAt ops n := by
      rintro rfl
      exact hcounted.ne heq
    rw [hcounts, Counts.count_of_ne hne]
    exact heq
  · exact fun hreleased => (hs.counting hreleased).subCounter hsub

theorem store (ho : o ∈ s.unstarted) :
    Sound ops { s with semaphore := s.semaphore.storeStart o, unstarted := s.unstarted.erase o } := by
  have hmem : ∀ o', o' ∈ s.unstarted.erase o ↔ o' ≠ o ∧ o' ∈ s.unstarted := fun o' => hs.unstarted_nodup.mem_erase_iff
  have hzero : (s.counts ops).counted o = 0 := by
    refine count_eq_zero.2 fun hmem => ?_
    obtain ⟨n, hn, heq⟩ := mem_map.1 hmem
    exact hs.fresh o ho n hn heq
  have hwaited : ∀ o', o' ∉ s.waited := by
    intro o' ho'
    rw [(hs.waited o' ho').1] at ho
    simp at ho
  have hcounts : ({ s with semaphore := s.semaphore.storeStart o, unstarted := s.unstarted.erase o } :
      Launched).counts ops = (s.counts ops).start o := by
    have hstarted : (fun o' => decide (o' ∉ s.unstarted.erase o)) =
        update (fun o' => decide (o' ∉ s.unstarted)) o true := by
      funext o'
      by_cases hoo : o' = o
      · simp [hoo, hmem]
      · simp [hoo, hmem]
    have hcounted : (s.counts ops).counted = update (s.counts ops).counted o 0 := by rw [← hzero, update_eq_self]
    rw [Launched.counts, Counts.start, ← hcounted]
    simp only [hstarted]
    rfl
  constructor
  · exact hs.nodup
  · exact hs.mem
  · rw [hcounts]
    refine hs.tracks.storeStart (total_pos.2 (hs.unstarted_mem o ho)) ?_ ?_
    · exact decide_eq_false (hwaited o)
    · exact decide_eq_false (not_not_intro ho)
  · exact hs.unstarted_nodup.erase o
  · exact fun o' ho' => hs.unstarted_mem o' ((hmem o').1 ho').2
  · exact fun o' ho' => hs.fresh o' ((hmem o').1 ho').2
  · exact hs.waited_nodup
  · exact fun o' ho' => absurd ho' (hwaited o')
  · exact fun hreleased => (hs.counting hreleased).storeStart o

theorem see (hhost : s.semaphore = .host h) (hunstarted : s.unstarted = []) (ho : o ∈ ops.map SemaphoreOp.opId)
    (heq : (s.counts ops).counted o = (s.counts ops).total o) (hw : o ∉ s.waited) :
    Sound ops { s with semaphore := .host (h.seeEnd o), waited := o :: s.waited } := by
  have ht : h.Tracks (s.counts ops) := by
    have := hs.tracks
    rwa [hhost] at this
  have hcounts : ({ s with semaphore := .host (h.seeEnd o), waited := o :: s.waited } : Launched).counts ops =
      (s.counts ops).wait o := by
    have hwaited : (fun o' => decide (o' ∈ o :: s.waited)) = update (fun o' => decide (o' ∈ s.waited)) o true := by
      funext o'
      by_cases hoo : o' = o
      · simp [hoo]
      · simp [hoo]
    rw [Launched.counts, Counts.wait]
    simp only [hwaited]
    rfl
  constructor
  · exact hs.nodup
  · exact hs.mem
  · rw [hcounts]
    exact ht.seeEnd (total_pos.2 ho) (decide_eq_false hw)
  · exact hs.unstarted_nodup
  · exact hs.unstarted_mem
  · exact hs.fresh
  · exact nodup_cons.2 ⟨hw, hs.waited_nodup⟩
  · intro o' ho'
    refine ⟨hunstarted, ?_⟩
    rcases mem_cons.1 ho' with rfl | ho'
    · exact heq
    · exact (hs.waited o' ho').2
  · intro hreleased
    have hcounting := hs.counting hreleased
    rw [hhost] at hcounting
    obtain ⟨hinfo, hcounter⟩ := h.seeEnd_keeps o
    simp only [Semaphore.Counting]
    rw [hinfo, hcounter]
    exact hcounting

/-- After the start the host has the end condition of an op id exactly when all its operations have been counted and `wait`
has not seen it. -/
theorem stepsDone_iff (hhost : s.semaphore = .host h) (hunstarted : s.unstarted = []) (ho : o ∈ ops.map SemaphoreOp.opId) :
    h.stepsDone o = true ↔ (s.counts ops).counted o = (s.counts ops).total o ∧ o ∉ s.waited := by
  have ht : h.Tracks (s.counts ops) := by
    have := hs.tracks
    rwa [hhost] at this
  have hstarted : (s.counts ops).started o = true := by simp [Launched.counts, hunstarted]
  rw [ht.stepsDone (total_pos.2 ho), decide_eq_true_iff, Counts.hostStep, hstarted]
  by_cases hw : o ∈ s.waited
  · have heq := (hs.waited o hw).2
    have hwaited : (s.counts ops).waited o = true := decide_eq_true hw
    simp only [hwaited, Bool.toNat_true, Bool.not_true, Bool.toNat_false, hw, not_true, and_false, iff_false]
    omega
  · have hwaited : (s.counts ops).waited o = false := decide_eq_false hw
    simp only [hwaited, Bool.not_true, Bool.toNat_false, hw, not_false_eq_true, and_true]
    omega

theorem mem_of_stepsDone (hhost : s.semaphore = .host h) (hdone : h.stepsDone o = true) : o ∈ ops.map SemaphoreOp.opId := by
  have ht : h.Tracks (s.counts ops) := by
    have := hs.tracks
    rwa [hhost] at this
  rw [← total_pos (s := s), ← ht.mem]
  rw [HostSemaphore.stepsDone] at hdone
  cases hi : h.stepInfo.find? o with
  | some i => exact KeyTable.mem_of_find? hi
  | none =>
    rw [hi] at hdone
    cases hdone

end

end Sound

theorem Semaphore.addCounters_tracks {device : Bool} {opIds : List Int} {m : Semaphore}
    (h : addCounters device opIds = some m) : m.Tracks (.launched opIds) ∧ m.Counting := by
  cases device with
  | true =>
    obtain ⟨d, hadd, rfl⟩ := map_eq_some_iff.1 h
    obtain ⟨d', hadd', hd, -⟩ := DeviceSemaphore.addCounters_tracks (DeviceSemaphore.card_le_of_addCounters hadd)
    obtain rfl := some.inj (hadd.symm.trans hadd')
    exact ⟨hd, trivial⟩
  | false =>
    obtain ⟨h₀, hadd, rfl⟩ := map_eq_some_iff.1 h
    obtain ⟨h', hadd', hh, -, hcounter⟩ := HostSemaphore.addCounters_tracks opIds
    obtain rfl := some.inj (hadd.symm.trans hadd')
    exact ⟨hh, hcounter⟩

namespace Sound
variable {ops : List SemaphoreOp} {s s' : Launched} {n : Nat} {o : Int}

theorem of_launch {device : Bool} (h : launch device ops = some s) : Sound ops s := by
  obtain ⟨m, hadd, rfl⟩ := map_eq_some_iff.1 h
  obtain ⟨hm, hcounting⟩ := Semaphore.addCounters_tracks hadd
  constructor
  · exact nodup_nil
  · simp
  · refine hm.congr rfl rfl ?_ ?_
    · funext o
      simp [Launched.counts, Counts.launched, Counts.zero]
    · intro o ho
      have hmem : o ∈ (ops.map SemaphoreOp.opId).dedup := mem_dedup.2 (count_pos_iff.1 ho)
      exact decide_eq_false (not_not_intro hmem)
  · exact nodup_dedup _
  · exact fun o ho => mem_dedup.1 ho
  · simp
  · exact nodup_nil
  · simp
  · exact fun _ => hcounting

theorem dequeue (hs : Sound ops s) (n : Nat) : Sound ops (s.dequeue n) :=
  ⟨hs.nodup, hs.mem, hs.tracks, hs.unstarted_nodup, hs.unstarted_mem, hs.fresh, hs.waited_nodup, hs.waited, hs.counting⟩

theorem step (hs : Sound ops s) {e : Event} (hok : s.StartedFirst ops e) (h : s.step ops e = some s') : Sound ops s' := by
  cases e with
  | fail =>
    obtain rfl := some.inj h
    exact ⟨hs.nodup, hs.mem, hs.tracks, hs.unstarted_nodup, hs.unstarted_mem, hs.fresh, hs.waited_nodup, hs.waited,
      hs.counting⟩
  | store o =>
    rw [Launched.step] at h
    split_ifs at h with ho
    obtain rfl := some.inj h
    exact hs.store ho
  | complete n =>
    rw [Launched.step] at h
    split_ifs at h with hguard
    obtain ⟨hn, -, hdone, -⟩ := hguard
    have hdone : s.done n = false := Bool.eq_false_iff.2 hdone
    obtain ⟨s₁, h₁, hs₁⟩ := hs.finish hn hdone (hok hdone)
    obtain rfl := some.inj (h₁.symm.trans h)
    exact hs₁
  | retire n =>
    rw [Launched.step] at h
    split_ifs at h with hguard
    obtain ⟨s₁, h₁, rfl⟩ := map_eq_some_iff.1 h
    refine dequeue ?_ n
    cases hdone : s.done n with
    | true =>
      rw [hdone, if_pos rfl] at h₁
      obtain rfl := some.inj h₁
      exact hs
    | false =>
      rw [hdone, if_neg Bool.false_ne_true] at h₁
      obtain ⟨s₂, h₂, hs₂⟩ := hs.finish hguard.1 hdone (hok hdone)
      obtain rfl := some.inj (h₂.symm.trans h₁)
      exact hs₂
  | remove n =>
    rw [Launched.step] at h
    split_ifs at h with hguard
    obtain rfl := some.inj h
    exact hs.dequeue n
  | see o =>
    rw [Launched.step] at h
    split_ifs at h with hguard
    rw [Launched.seeEnd] at h
    cases hm : s.semaphore with
    | device d =>
      rw [hm] at h
      cases h
    | host m =>
      rw [hm] at h
      simp only at h
      split_ifs at h with hdone
      obtain rfl := some.inj h
      have ho := hs.mem_of_stepsDone hm hdone
      obtain ⟨heq, hw⟩ := (hs.stepsDone_iff hm hguard.1 ho).1 hdone
      exact hs.see hm hguard.1 ho heq hw
  | release =>
    rw [Launched.step] at h
    split_ifs at h with hguard
    rw [Launched.release] at h
    cases hm : s.semaphore with
    | device d =>
      rw [hm] at h
      simp only at h
      split_ifs at h
      obtain rfl := some.inj h
      have ht := hs.tracks
      rw [hm] at ht
      exact ⟨hs.nodup, hs.mem, ht, hs.unstarted_nodup, hs.unstarted_mem, hs.fresh, hs.waited_nodup, hs.waited,
        fun hreleased => by cases hreleased⟩
    | host m =>
      rw [hm] at h
      simp only at h
      split_ifs at h
      obtain rfl := some.inj h
      have ht := hs.tracks
      rw [hm] at ht
      exact ⟨hs.nodup, hs.mem, ⟨ht.mem, ht.nSteps, ht.curStep⟩, hs.unstarted_nodup, hs.unstarted_mem, hs.fresh,
        hs.waited_nodup, hs.waited, fun hreleased => by cases hreleased⟩

end Sound

/-! ## The end -/

/-- All operations have been counted off, by completing or by being retired. -/
def Launched.allDone (ops : List SemaphoreOp) (s : Launched) : Prop := ∀ n < ops.length, s.done n = true

/-- Every operation has called `subCounter` once if it is done and never before. When the start has been stored and all
operations are done, every op id that `wait` has not yet counted has its end condition, and the stream can be released
without any further event but those of the waiting. -/
structure Ends (ops : List SemaphoreOp) (s : Launched) : Prop where
  once : ∀ n < ops.length, s.calls.count n = if s.done n then 1 else 0
  ended : s.unstarted = [] → s.allDone ops → ∀ o ∈ ops.map SemaphoreOp.opId, o ∉ s.waited → s.semaphore.ended o = true
  released : s.unstarted = [] → s.allDone ops → s.released = false →
    ∃ (seen : List Int) (s' : Launched), exec (Launched.step ops) s (seen.map Event.see ++ [.release]) = some s' ∧ s'.released = true

namespace Sound
variable {ops : List SemaphoreOp} {s : Launched} {n : Nat} {o : Int}

section

variable (hs : Sound ops s)
include hs

theorem once (hn : n < ops.length) : s.calls.count n = if s.done n then 1 else 0 := by
  rw [hs.nodup.count]
  simp [hs.mem, hn]

theorem finished (hunstarted : s.unstarted = []) (hdone : s.allDone ops) (o : Int) : (s.counts ops).finished o = true := by
  rw [Counts.finished, hs.counted_eq hdone o]
  simp [Launched.counts, hunstarted]

theorem getCounter_eq_zero {d : DeviceSemaphore} (hm : s.semaphore = .device d) (hunstarted : s.unstarted = [])
    (hdone : s.allDone ops) : d.getCounter = 0 := by
  have ht := hs.tracks
  rw [hm] at ht
  have hcounter := ht.counter
  simp only [hs.finished hunstarted hdone] at hcounter
  rw [hcounter]
  simp

theorem ended (hunstarted : s.unstarted = []) (hdone : s.allDone ops) (ho : o ∈ ops.map SemaphoreOp.opId)
    (hw : o ∉ s.waited) : s.semaphore.ended o = true := by
  cases hm : s.semaphore with
  | host h => exact (hs.stepsDone_iff hm hunstarted ho).2 ⟨hs.counted_eq hdone o, hw⟩
  | device d => exact decide_eq_true (hs.getCounter_eq_zero hm hunstarted hdone)

theorem release_host {os : List Int} (hm : s.semaphore = .host h) (hunstarted : s.unstarted = []) (hdone : s.allDone ops)
    (hreleased : s.released = false) (hnd : os.Nodup) (hos : ∀ o, o ∈ os ↔ o ∈ ops.map SemaphoreOp.opId ∧ o ∉ s.waited) :
    ∃ s', exec (Launched.step ops) s (os.map Event.see ++ [.release]) = some s' ∧ s'.released = true := by
  induction os generalizing s h with
  | nil =>
    have ht := hs.tracks
    rw [hm] at ht
    have hcounting := hs.counting hreleased
    rw [hm] at hcounting
    have hsub : h.stepInfo.keys ⊆ s.waited := by
      intro o ho
      have hmem := total_pos.1 ((ht.mem o).1 ho)
      by_contra hw
      have := (hos o).2 ⟨hmem, hw⟩
      simp at this
    have hle : h.stepInfo.size ≤ s.waited.length := (subperm_of_subset h.stepInfo.nodup hsub).length_le
    have hcounter : h.counter ≤ s.waited.length := by
      rw [hcounting]
      exact_mod_cast hle
    refine ⟨{ s with semaphore := .host h.endWait, released := true }, ?_, rfl⟩
    rw [map_nil, nil_append, exec_singleton, Launched.step, if_pos ⟨hunstarted, hreleased⟩, Launched.release, hm]
    exact if_pos hcounter
  | cons o os ih =>
    obtain ⟨ho, hw⟩ := (hos o).1 mem_cons_self
    have heq := hs.counted_eq hdone o
    have hstep : s.step ops (.see o) = some { s with semaphore := .host (h.seeEnd o), waited := o :: s.waited } := by
      rw [Launched.step, if_pos ⟨hunstarted, hreleased⟩, Launched.seeEnd, hm]
      exact if_pos ((hs.stepsDone_iff hm hunstarted ho).2 ⟨heq, hw⟩)
    rw [map_cons, cons_append, exec, hstep, bind_some]
    refine ih (hs.see hm hunstarted ho heq hw) rfl hunstarted hdone hreleased (nodup_cons.1 hnd).2 ?_
    intro o'
    have hnotMem := (nodup_cons.1 hnd).1
    have hold := hos o'
    by_cases hoo : o' = o
    · subst hoo
      simp [hnotMem]
    · simpa [hoo] using hold

theorem ends : Ends ops s where
  once := fun n hn => hs.once hn
  ended := fun hunstarted hdone o ho hw => hs.ended hunstarted hdone ho hw
  released := by
    intro hunstarted hdone hreleased
    cases hm : s.semaphore with
    | host h =>
      refine ⟨(ops.map SemaphoreOp.opId).dedup.filter fun o => o ∉ s.waited, ?_⟩
      refine hs.release_host hm hunstarted hdone hreleased ((nodup_dedup _).filter _) ?_
      intro o
      simp
    | device d =>
      refine ⟨[], { s with released := true }, ?_, rfl⟩
      rw [map_nil, nil_append, exec_singleton, Launched.step, if_pos ⟨hunstarted, hreleased⟩, Launched.release, hm]
      exact if_pos (hs.getCounter_eq_zero hm hunstarted hdone).le

end

end Sound

/-- A launched group ends in every run in which no operation counts itself off before its start. -/
theorem launched_ends {device : Bool} {ops : List SemaphoreOp} {s₀ s : Launched} (hlaunch : launch device ops = some s₀)
    (h : Reach (Launched.step ops) (Launched.StartedFirst ops) s₀ s) : Ends ops s :=
  (h.invariant (Sound.of_launch hlaunch) fun _ _ _ hs hok hstep => hs.step hok hstep).ends

/-- Nothing counts itself off before its start, as a check. -/
def Launched.startedFirst (ops : List SemaphoreOp) (s : Launched) : Event → Bool
  | .complete n | .retire n => s.done n || decide (opIdAt ops n ∉ s.unstarted)
  | _ => true

theorem Launched.startedFirst_imp (ops : List SemaphoreOp) (s : Launched) (e : Event)
    (h : s.startedFirst ops e = true) : s.StartedFirst ops e := by
  cases e <;> grind [startedFirst, StartedFirst]

/-- An operation retired after its start. -/
theorem launched_ends_retired : ∃ s₀ s, launch false [⟨0, 0⟩] = some s₀ ∧
    exec (Launched.step [⟨0, 0⟩]) s₀ [.store 0, .fail, .retire 0] = some s ∧ Ends [⟨0, 0⟩] s := by
  have hs : ∃ s₀ s, launch false [⟨0, 0⟩] = some s₀ ∧
      exec (Launched.step [⟨0, 0⟩]) s₀ [.store 0, .fail, .retire 0] = some s ∧
      exec (fun s e => if s.startedFirst [⟨0, 0⟩] e then s.step [⟨0, 0⟩] e else none) s₀ [.store 0, .fail, .retire 0] =
        some s := ⟨_, _, rfl, rfl, rfl⟩
  obtain ⟨s₀, s, hlaunch, hrun, hchecked⟩ := hs
  exact ⟨s₀, s, hlaunch, hrun, launched_ends hlaunch (Reach.of_checked (Launched.startedFirst_imp _) hchecked)⟩

theorem retired_before_start (device : Bool) : ∃ s₀ s, launch device [⟨0, 0⟩] = some s₀ ∧
    Reach (Launched.step [⟨0, 0⟩]) (fun _ _ => True) s₀ s ∧ s.unstarted = [] ∧ s.allDone [⟨0, 0⟩] ∧
    s.semaphore.ended 0 = false ∧ ¬ Ends [⟨0, 0⟩] s := by
  have hs : ∃ s₀ s, launch device [⟨0, 0⟩] = some s₀ ∧
      exec (Launched.step [⟨0, 0⟩]) s₀ [.fail, .retire 0, .store 0] = some s ∧ s.unstarted = [] ∧ s.done 0 = true ∧
      s.waited = [] ∧ s.semaphore.ended 0 = false := by
    cases device with
    | false => exact ⟨_, _, rfl, rfl, rfl, rfl, rfl, rfl⟩
    | true => exact ⟨_, _, rfl, rfl, rfl, rfl, rfl, rfl⟩
  obtain ⟨s₀, s, hlaunch, hrun, hunstarted, hdone, hwaited, hended⟩ := hs
  have hall : s.allDone [⟨0, 0⟩] := by
    intro n hn
    obtain rfl : n = 0 := by simpa using hn
    exact hdone
  refine ⟨s₀, s, hlaunch, Reach.of_exec (fun _ _ _ => trivial) hrun, hunstarted, hall, hended, ?_⟩
  intro h
  have htrue := h.ended hunstarted hall 0 (by simp) (by simp [hwaited])
  rw [hended] at htrue
  cases htrue

/-- It does so on the host and on the device. -/
theorem launched_ends_counterexample :
    (∃ s₀ s, launch false [⟨0, 0⟩] = some s₀ ∧ Reach (Launched.step [⟨0, 0⟩]) (fun _ _ => True) s₀ s ∧
      s.unstarted = [] ∧ s.allDone [⟨0, 0⟩] ∧ s.semaphore.ended 0 = false ∧ ¬ Ends [⟨0, 0⟩] s) ∧
    ∃ s₀ s, launch true [⟨0, 0⟩] = some s₀ ∧ Reach (Launched.step [⟨0, 0⟩]) (fun _ _ => True) s₀ s ∧
      s.unstarted = [] ∧ s.allDone [⟨0, 0⟩] ∧ s.semaphore.ended 0 = false ∧ ¬ Ends [⟨0, 0⟩] s :=
  ⟨retired_before_start false, retired_before_start true⟩

end FlagCX.Group
