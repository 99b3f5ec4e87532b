import FlagCX.UniRunner.Dag

/-!
# Executing the DAGs of all ranks

Every rank runs the nodes of its DAG in any order that respects the edges; a transfer's operations proceed one by one,
and messages between an ordered pair of ranks arrive in the order they were sent.

* `perform`  : the effect of one operation of a node on memories and channels.
* `Step`     : some rank performs an operation of a node whose parents are done.
* `Complete` : every node of every rank is done.
-/

namespace FlagCX.UniRunner
open List Function

open Dag

/-- Memories (rank, address), channels (from, to) with the oldest message first, and the operations already performed
(rank, node, operation). -/
structure World (α : Type) where
  mem : Nat → Nat → α
  chan : Nat → Nat → List (List α)
  fired : Nat → Nat → Nat → Bool

def NodeData.numOps : NodeData → Nat
  | .p2p ops => ops.length
  | .red _ => 1
  | .cpy _ => 1

/-- `flagcxReduceTrigger::setValue` keeps `flagcxReduceTriggerBitsCount` = 32 bits of the count. -/
def triggerCount (count : Nat) : Nat := count % 2 ^ 32

section

variable {α : Type}

/-- Overwrite `count` elements from `addr` on. -/
def writeAt (m : Nat → α) (addr count : Nat) (f : Nat → α) : Nat → α := fun a =>
  if addr ≤ a ∧ a < addr + count then f (a - addr) else m a

def readAt (m : Nat → α) (addr count : Nat) : List α := (range count).map fun j => m (addr + j)

theorem writeAt_of_not (m : Nat → α) {addr count a : Nat} (f : Nat → α) (h : ¬ (addr ≤ a ∧ a < addr + count)) :
    writeAt m addr count f a = m a := if_neg h

def World.setMem (w : World α) (r : Nat) (m : Nat → α) : World α := { w with mem := update w.mem r m }

def World.setChan (w : World α) (r peer : Nat) (q : List (List α)) : World α :=
  { w with chan := update w.chan r (update (w.chan r) peer q) }

/-- Operation `k` of a node on rank `r`; a receive waits for a message. -/
def perform (op : α → α → α) (w : World α) (r : Nat) : NodeData → Nat → Option (World α)
  | .p2p ops, k =>
    match ops[k]? with
    | none => none
    | some ⟨.send, peer, addr, count⟩ => some (w.setChan r peer (w.chan r peer ++ [readAt (w.mem r) addr count]))
    | some ⟨.recv, peer, addr, count⟩ =>
      match w.chan peer r with
      | [] => none
      | msg :: rest =>
        some ((w.setChan peer r rest).setMem r (writeAt (w.mem r) addr count fun j => msg.getD j (w.mem r (addr + j))))
  | .red d, 0 =>
    some (w.setMem r (writeAt (w.mem r) d.output (triggerCount d.count) fun j =>
      op (w.mem r (d.input1 + j)) (w.mem r (d.input2 + j))))
  | .cpy d, 0 => some (w.setMem r (writeAt (w.mem r) d.dst d.count fun j => w.mem r (d.src + j)))
  | _, _ + 1 => none

end

section

variable {α : Type} (n : Nat) (dag : Nat → List DagNode) (op : α → α → α)

/-- All operations of node `u` of rank `r` have been performed. -/
def Done (w : World α) (r u : Nat) : Prop :=
  ∃ node, (dag r)[u]? = some node ∧ ∀ k < node.nodeData.numOps, w.fired r u k = true

/-- All parents of node `u` are done. -/
def Ready (w : World α) (r u : Nat) : Prop := ∀ v, Edge ((dag r).map (·.children)) v u → Done dag w r v

def World.mark (w : World α) (r u k : Nat) : World α :=
  { w with fired := fun r' u' k' => if r' = r ∧ u' = u ∧ k' = k then true else w.fired r' u' k' }

/-- Rank `r` performs operation `k` of its node `u`. -/
inductive Step (w : World α) : World α → Prop
  | exec (r u k : Nat) (node : DagNode) (w' : World α) (hr : r < n) (hnode : (dag r)[u]? = some node)
      (hready : Ready dag w r u) (hfresh : w.fired r u k = false)
      (hperform : perform op w r node.nodeData k = some w') : Step w (w'.mark r u k)

abbrev Run : World α → World α → Prop := Relation.ReflTransGen (Step n dag op)

def Complete (w : World α) : Prop := ∀ r < n, ∀ u < (dag r).length, Done dag w r u

/-- Nothing sent, nothing performed. -/
def World.start (m : Nat → Nat → α) : World α := ⟨m, fun _ _ => [], fun _ _ _ => false⟩

end

section

variable {α : Type} (w : World α)

@[simp] theorem World.mark_mem (r u k : Nat) : (w.mark r u k).mem = w.mem := rfl

theorem World.mark_fired (r u k r' u' k' : Nat) :
    (w.mark r u k).fired r' u' k' = if r' = r ∧ u' = u ∧ k' = k then true else w.fired r' u' k' := rfl

@[simp] theorem World.setMem_self (r : Nat) (m : Nat → α) : (w.setMem r m).mem r = m := update_self ..

theorem World.setMem_of_ne {r r' : Nat} (m : Nat → α) (h : r' ≠ r) : (w.setMem r m).mem r' = w.mem r' := update_of_ne h ..

@[simp] theorem World.setMem_chan (r : Nat) (m : Nat → α) : (w.setMem r m).chan = w.chan := rfl

theorem World.setChan_chan (r peer a b : Nat) (q : List (List α)) :
    (w.setChan r peer q).chan a b = if a = r ∧ b = peer then q else w.chan a b := by
  unfold World.setChan
  by_cases ha : a = r
  · subst ha
    by_cases hb : b = peer
    · subst hb
      simp
    · simp [hb]
  · simp [ha]

end

/-! ## Runs are finite -/

section

variable {α : Type} {n : Nat} {dag : Nat → List DagNode} {op : α → α → α} {w w' : World α}

theorem perform_fired {r k : Nat} {data : NodeData} (h : perform op w r data k = some w') :
    w'.fired = w.fired ∧ k < data.numOps := by
  unfold perform at h
  split at h
  · split at h
    · cases h
    · next hk =>
      cases h
      exact ⟨rfl, (List.getElem?_eq_some_iff.1 hk).1⟩
    · next hk =>
      split at h
      · cases h
      · cases h
        exact ⟨rfl, (List.getElem?_eq_some_iff.1 hk).1⟩
  · cases h
    exact ⟨rfl, zero_lt_one⟩
  · cases h
    exact ⟨rfl, zero_lt_one⟩
  · cases h

variable (n dag)

/-- The operations of all ranks that have not been performed. -/
def unfired (w : World α) : Finset (Nat × Nat × Nat) :=
  ((range n).flatMap fun r => (range (dag r).length).flatMap fun u =>
    (range (((dag r)[u]?.map (·.nodeData.numOps)).getD 0)).map fun k => (r, u, k)).toFinset.filter
      fun t => w.fired t.1 t.2.1 t.2.2 = false

variable {n dag}

theorem mem_unfired {r u k : Nat} : (r, u, k) ∈ unfired n dag w ↔
    (r < n ∧ ∃ node, (dag r)[u]? = some node ∧ k < node.nodeData.numOps) ∧ w.fired r u k = false := by
  simp only [unfired, Finset.mem_filter, mem_toFinset, mem_flatMap, mem_range, mem_map,
    Prod.mk.injEq]
  refine and_congr_left fun _ => ?_
  constructor
  · rintro ⟨r', hr, u', hu, k', hk, rfl, rfl, rfl⟩
    rw [getElem?_eq_getElem hu] at hk
    exact ⟨hr, _, getElem?_eq_getElem hu, hk⟩
  · rintro ⟨hr, node, hnode, hk⟩
    exact ⟨r, hr, u, (List.getElem?_eq_some_iff.1 hnode).1, k, by rwa [hnode], rfl, rfl, rfl⟩

/-- **Every step performs one more operation**, so that runs are finite. -/
theorem unfired_lt (h : Step n dag op w w') : (unfired n dag w').card < (unfired n dag w).card := by
  obtain ⟨r, u, k, node, w₁, hr, hnode, -, hfresh, hperform⟩ := h
  obtain ⟨hfired, hk⟩ := perform_fired hperform
  refine Finset.card_lt_card ⟨?_, ?_⟩
  · rintro ⟨r', u', k'⟩ ht
    rw [mem_unfired, World.mark_fired, hfired] at ht
    rw [mem_unfired]
    refine ⟨ht.1, ?_⟩
    have hun := ht.2
    split_ifs at hun
    exact hun
  · intro hsub
    have := hsub (mem_unfired.2 ⟨⟨hr, node, hnode, hk⟩, hfresh⟩)
    rw [mem_unfired, World.mark_fired, if_pos ⟨rfl, rfl, rfl⟩] at this
    exact absurd this.2 (by simp)

end

end FlagCX.UniRunner
