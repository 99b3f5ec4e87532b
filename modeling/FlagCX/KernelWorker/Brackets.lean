import Mathlib.Data.List.Induction
import FlagCX.Lib.Interleave
import FlagCX.Result

/-!
# Two-sided groups of the kernel worker

The kernel worker answers a device kernel's sends and receives with `flagcxHeteroSend` and `flagcxHeteroRecv`, between a
`flagcxHeteroGroupStart` and a `flagcxHeteroGroupEnd` that it places by two counters (`flagcxKernelWorkerProgressOnce`
in `flagcx/core/proxy.cc`).

* `Worker.handle` : what one trigger does to the counters and which calls it makes.
* `bracketed_iff` : the calls are as they should be exactly when no kernel is without sends and receives.

A call that fails ends the worker, so a run that an error cuts short is a run on a front part of the triggers
(`Worker.progress_front`).
-/

namespace FlagCX.KernelWorker
open Lib List

/-! ## The worker -/

/-- The arguments of a two-sided operation (`enqueueFifoSend`, `enqueueFifoRecv`). -/
structure Message where
  addr : Nat
  count : Nat
  datatype : Nat
  peer : Nat
  deriving DecidableEq, Repr

/-- `flagcxDevicePrimSend` and `flagcxDevicePrimRecv`. -/
inductive TwoSided where
  | send (m : Message)
  | recv (m : Message)
  deriving DecidableEq, Repr

/-- A trigger of the two-sided path. `term` carries what `getTotalCoops` reads. -/
inductive Trigger where
  | op (o : TwoSided)
  | term (totalCoops : Nat)
  deriving DecidableEq, Repr

/-- The calls of the worker into the heterogeneous communicator. -/
inductive Call where
  | groupStart
  | twoSided (o : TwoSided)
  | groupEnd
  deriving DecidableEq, Repr

/-- The two counters of `flagcxKernelWorkerState`, and the calls made so far. -/
structure Worker where
  groupCount : Nat
  termCount : Nat
  calls : List Call
  deriving DecidableEq, Repr

/-- The counters as `flagcxKernelWorkerState` is made. -/
def Worker.init : Worker := ⟨0, 0, []⟩

/-- The cases `PrimSend`, `PrimRecv` and `PrimTerm` of `flagcxKernelWorkerProgressOnce`. -/
def Worker.handle (w : Worker) : Trigger → Worker
  | .op o =>
    let w := if w.groupCount = 0 then { w with groupCount := w.groupCount + 1, calls := w.calls ++ [.groupStart] } else w
    { w with calls := w.calls ++ [.twoSided o] }
  | .term totalCoops =>
    let w := { w with termCount := w.termCount + 1 }
    if 0 < w.groupCount ∧ totalCoops ≤ w.termCount then
      { groupCount := w.groupCount - 1, termCount := 0, calls := w.calls ++ [.groupEnd] }
    else w

def Worker.run (w : Worker) (ts : List Trigger) : Worker := ts.foldl Worker.handle w

def Worker.progress (w : Worker) : List (Trigger × Result) → Worker × Result
  | [] => (w, .success)
  | (t, answer) :: ts =>
    let res := if (w.handle t).calls = w.calls then .success else answer
    if res = .success then (w.handle t).progress ts else (w.handle t, res)

theorem Worker.progress_front (w : Worker) (ts : List (Trigger × Result)) :
    ∃ front, front <+: ts.map Prod.fst ∧ (w.progress ts).1 = w.run front := by
  induction ts generalizing w with
  | nil => exact ⟨[], nil_prefix, rfl⟩
  | cons a ts ih =>
    obtain ⟨t, answer⟩ := a
    simp only [Worker.progress]
    generalize (if (w.handle t).calls = w.calls then Result.success else answer) = res
    split_ifs
    · obtain ⟨front, hfront, hrun⟩ := ih (w.handle t)
      exact ⟨t :: front, prefix_cons_inj t |>.2 hfront, hrun⟩
    · exact ⟨[t], ⟨ts.map Prod.fst, rfl⟩, rfl⟩

@[simp] theorem Worker.run_append (w : Worker) (ts us : List Trigger) : w.run (ts ++ us) = (w.run ts).run us := foldl_append

/-! ## Kernels -/

def Trigger.op? : Trigger → Option TwoSided
  | .op o => some o
  | .term _ => none

def operations (ts : List Trigger) : List TwoSided := ts.filterMap Trigger.op?

@[simp] theorem operations_nil : operations [] = [] := rfl

@[simp] theorem operations_append (ts us : List Trigger) : operations (ts ++ us) = operations ts ++ operations us :=
  filterMap_append

@[simp] theorem operations_op (o : TwoSided) : operations [.op o] = [o] := rfl

@[simp] theorem operations_term (n : Nat) : operations [.term n] = [] := rfl

def Trigger.isTerm : Trigger → Bool
  | .op _ => false
  | .term _ => true

/-- How many `PrimTerm` there are among the triggers. -/
def terms (ts : List Trigger) : Nat := ts.countP Trigger.isTerm

@[simp] theorem terms_nil : terms [] = 0 := rfl

@[simp] theorem terms_append (ts us : List Trigger) : terms (ts ++ us) = terms ts + terms us := countP_append

@[simp] theorem terms_op (o : TwoSided) : terms [.op o] = 0 := rfl

@[simp] theorem terms_term (n : Nat) : terms [.term n] = 1 := rfl

/-- What one of `totalCoops` groups enqueues: its operations, and its `PrimTerm`. -/
def program (totalCoops : Nat) (ops : List TwoSided) : List Trigger := ops.map .op ++ [.term totalCoops]

/-- A kernel: the operations of each of its groups, and the order in which their triggers entered the FIFO. -/
structure Kernel where
  groups : List (List TwoSided)
  triggers : List Trigger
  merged : Interleaved (groups.map (program groups.length)) triggers

def Kernel.Busy (k : Kernel) : Prop := ∃ ops ∈ k.groups, ops ≠ []

/-- The calls while the triggers `ts` of a kernel have been handled and others are to come. -/
def opened (ts : List Trigger) : List Call :=
  if operations ts = [] then [] else .groupStart :: (operations ts).map .twoSided

def bracket (ts : List Trigger) : List Call := opened ts ++ if operations ts = [] then [] else [.groupEnd]

/-- After every part of the triggers of the kernels the calls are the brackets of the kernels that are over and what the
kernel under way has opened; both counters are zero between kernels. -/
def Bracketed (ks : List Kernel) : Prop :=
  ∀ done k rest, ks = done ++ k :: rest → ∀ ts us, k.triggers = ts ++ us →
    let w := Worker.init.run ((done.flatMap Kernel.triggers) ++ ts)
    w.calls = done.flatMap (fun k => bracket k.triggers) ++ (if us = [] then bracket ts else opened ts) ∧
      (us = [] → w.groupCount = 0 ∧ w.termCount = 0)

section Kernel
variable (k : Kernel) {ts us : List Trigger}

theorem terms_program (n : Nat) (ops : List TwoSided) : terms (program n ops) = 1 := by
  have hops : terms (ops.map .op) = 0 := by simp [terms, countP_map, Trigger.isTerm]
  rw [program, terms_append, hops, terms_term]

theorem Kernel.terms_eq : terms k.triggers = k.groups.length := by
  rw [terms, k.merged.perm.countP_eq, countP_flatten, map_map]
  have hone : countP Trigger.isTerm ∘ program k.groups.length = fun _ => 1 := funext (terms_program k.groups.length)
  rw [hone, map_const', sum_replicate_nat, Nat.mul_one]

theorem Kernel.last_isTerm : ∀ t ∈ k.triggers.getLast?, t.isTerm = true := by
  refine k.merged.last_of fun g hg t ht => ?_
  obtain ⟨ops, _, rfl⟩ := mem_map.1 hg
  rw [program, getLast?_append, getLast?_singleton, Option.some_or, Option.mem_some_iff] at ht
  rw [← ht, Trigger.isTerm]

theorem Kernel.term_eq {n : Nat} (h : .term n ∈ k.triggers) : n = k.groups.length := by
  obtain ⟨g, hg, hmem⟩ := k.merged.mem_iff.1 h
  obtain ⟨ops, _, rfl⟩ := mem_map.1 hg
  simpa [program] using hmem

theorem Kernel.busy_iff : k.Busy ↔ operations k.triggers ≠ [] := by
  rw [Ne, eq_nil_iff_forall_not_mem]
  push Not
  constructor
  · rintro ⟨ops, hops, hne⟩
    obtain ⟨o, ho⟩ := exists_mem_of_ne_nil ops hne
    refine ⟨o, mem_filterMap.2 ⟨.op o, k.merged.mem_iff.2 ⟨_, mem_map_of_mem hops, ?_⟩, rfl⟩⟩
    simp [program, ho]
  · rintro ⟨o, ho⟩
    obtain ⟨t, ht, hto⟩ := mem_filterMap.1 ho
    obtain ⟨g, hg, hmem⟩ := k.merged.mem_iff.1 ht
    obtain ⟨ops, hops, rfl⟩ := mem_map.1 hg
    refine ⟨ops, hops, ?_⟩
    rintro rfl
    rw [program, map_nil, nil_append, mem_singleton] at hmem
    subst hmem
    cases hto

theorem Kernel.terms_lt (h : k.triggers = ts ++ us) (hus : us ≠ []) : terms ts < k.groups.length := by
  rw [← k.terms_eq, h, terms_append]
  have hlast := k.last_isTerm
  rw [h, getLast?_append, getLast?_eq_getLast_of_ne_nil hus] at hlast
  have hpos : 0 < terms us := countP_pos_iff.2 ⟨us.getLast hus, getLast_mem hus, hlast _ (by simp)⟩
  omega

theorem Kernel.run_part (h : k.triggers = ts ++ us) (hus : us ≠ []) (calls : List Call) :
    (Worker.mk 0 0 calls).run ts =
      ⟨if operations ts = [] then 0 else 1, terms ts, calls ++ opened ts⟩ := by
  induction ts using reverseRecOn generalizing us with
  | nil => simp [Worker.run, opened]
  | append_singleton ts t ih =>
    rw [Worker.run_append, @ih (t :: us) (by simp [h]) (by simp)]
    cases t with
    | op o =>
      by_cases hops : operations ts = []
      · simp [Worker.run, Worker.handle, opened, hops]
      · simp [Worker.run, Worker.handle, opened, hops]
    | term n =>
      have hlt := k.terms_lt h hus
      have hn : n = k.groups.length := k.term_eq (by simp [h])
      have hops : operations (ts ++ [.term n]) = operations ts := by simp
      rw [terms_append, terms_term] at hlt ⊢
      simp only [Worker.run, foldl_cons, foldl_nil, Worker.handle, opened, hops]
      exact if_neg fun hend => by omega

theorem Kernel.run_all (calls : List Call) :
    (Worker.mk 0 0 calls).run k.triggers =
      ⟨0, if operations k.triggers = [] then k.groups.length else 0, calls ++ bracket k.triggers⟩ := by
  rcases eq_nil_or_concat' k.triggers with hnil | ⟨ts, t, hts⟩
  · have hzero := k.terms_eq
    rw [hnil] at hzero ⊢
    simp [Worker.run, bracket, opened, ← hzero]
  · have hlast : t.isTerm = true := k.last_isTerm t (by simp [hts])
    have hcount := k.terms_eq
    cases t with
    | op o => cases hlast
    | term n =>
      have hn : n = k.groups.length := k.term_eq (by simp [hts])
      have hops : operations (ts ++ [.term n]) = operations ts := by simp
      rw [hts, terms_append, terms_term] at hcount
      rw [hts, Worker.run_append, k.run_part hts (by simp) calls]
      simp only [Worker.run, foldl_cons, foldl_nil, Worker.handle, bracket, opened, hops]
      by_cases hnone : operations ts = []
      · simp [hnone, hcount]
      · have hend : 0 < 1 ∧ n ≤ terms ts + 1 := ⟨Nat.one_pos, by omega⟩
        simp only [if_neg hnone, if_pos hend, append_assoc]

end Kernel

/-! ## The calls over all kernels -/

theorem run_kernels {ks : List Kernel} (h : ∀ k ∈ ks, k.groups ≠ [] → k.Busy) (calls : List Call) :
    (Worker.mk 0 0 calls).run (ks.flatMap Kernel.triggers) =
      ⟨0, 0, calls ++ ks.flatMap fun k => bracket k.triggers⟩ := by
  induction ks generalizing calls with
  | nil => simp [Worker.run]
  | cons k ks ih =>
    have hzero : (if operations k.triggers = [] then k.groups.length else 0) = 0 := by
      split_ifs with hops
      · by_contra hne
        have hbusy := h k (by simp) (by rintro hnil; simp [hnil] at hne)
        exact k.busy_iff.1 hbusy hops
      · rfl
    rw [flatMap_cons, flatMap_cons, Worker.run_append, k.run_all, hzero, ih fun k' hk' => h k' (by simp [hk']),
      append_assoc]

/-- **Two-sided groups.** Over any kernels, each with any number of groups and of operations and in any order of their
triggers, the worker brackets the operations of each kernel and returns its counters to zero exactly when every kernel that
has a group sends or receives. -/
theorem bracketed_iff (ks : List Kernel) : Bracketed ks ↔ ∀ k ∈ ks, k.groups ≠ [] → k.Busy := by
  constructor
  · intro h
    have hfront : ∀ done rest, ks = done ++ rest → ∀ k ∈ done, k.groups ≠ [] → k.Busy := by
      intro done
      induction done using reverseRecOn with
      | nil => simp
      | append_singleton done k ih =>
        intro rest hks
        have hks' : ks = done ++ k :: rest := by simp [hks]
        have hdone := ih (k :: rest) hks'
        intro k' hk' hgroups
        rcases mem_append.1 hk' with hmem | hmem
        · exact hdone k' hmem hgroups
        · obtain rfl : k' = k := by simpa using hmem
          obtain ⟨-, hzero⟩ := h done k' rest hks' k'.triggers [] (by simp)
          rw [Worker.run_append, Worker.init, run_kernels hdone, k'.run_all] at hzero
          rw [k'.busy_iff]
          intro hops
          have := (hzero rfl).2
          rw [if_pos hops] at this
          exact hgroups (length_eq_zero_iff.1 this)
    exact hfront ks [] (by simp)
  · intro h done k rest hks ts us hts
    have hdone : ∀ k' ∈ done, k'.groups ≠ [] → k'.Busy := fun k' hk' => h k' (by simp [hks, hk'])
    rw [Worker.run_append, Worker.init, run_kernels hdone]
    by_cases hus : us = []
    · subst hus
      rw [append_nil] at hts
      have hrun := @run_kernels [k] (fun k' hk' => h k' (by simp_all)) (done.flatMap fun k => bracket k.triggers)
      rw [flatMap_singleton, flatMap_singleton, hts] at hrun
      rw [nil_append, hrun, if_pos rfl]
      exact ⟨rfl, fun _ => ⟨rfl, rfl⟩⟩
    · rw [k.run_part hts hus, if_neg hus, nil_append]
      exact ⟨rfl, fun h => absurd h hus⟩

def exampleSend (peer : Nat) : TwoSided := .send ⟨4096, 8, 0, peer⟩

/-- Two groups without sends and receives. -/
def idleKernel : Kernel where
  groups := [[], []]
  triggers := [.term 2, .term 2]
  merged := .cons [] [_] (.cons [[]] [] (.nil (by simp)))

/-- Two groups that send once each, the second after the first has ended. -/
def sendingKernel : Kernel where
  groups := [[exampleSend 1], [exampleSend 2]]
  triggers := [.op (exampleSend 1), .term 2, .op (exampleSend 2), .term 2]
  merged := .cons [] [_] (.cons [] [_] (.cons [[]] [] (.cons [[]] [] (.nil (by simp)))))

/-- After a kernel without sends the group of the next kernel is ended by the first `PrimTerm`, and opened again for the
second send. -/
theorem idle_kernel_unbrackets :
    (Worker.init.run (idleKernel.triggers ++ sendingKernel.triggers)).calls =
        [.groupStart, .twoSided (exampleSend 1), .groupEnd, .groupStart, .twoSided (exampleSend 2)] ∧
      ¬ Bracketed [idleKernel, sendingKernel] := by
  refine ⟨by decide, fun h => ?_⟩
  have hcalls := (h [idleKernel] sendingKernel [] rfl sendingKernel.triggers [] (by simp)).1
  revert hcalls
  decide

end FlagCX.KernelWorker
