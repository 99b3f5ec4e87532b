import FlagCX.Lib.Guarded
import FlagCX.Lib.History
import FlagCX.UniRunner.Scheduler
import Mathlib.Data.BitVec

/-!
# The scheduler runs the DAG

`Scheduled` ties the queues, counters, events and triggers of the runner to the nodes that were launched and seen
complete; `Safe` is what it says of the nodes alone.

* `EventBitmap.getEvent_spec`, `Fifo.enqueue_some` : the indices given out are free ones.
* `Counted`  : the parent counters against the nodes that are complete, while the children of one are released.
* `Cursor`   : where a walk over a queue stands.
-/

namespace FlagCX.UniRunner
open List Function Option

open Lib Dag

/-! ## The event pool -/

namespace EventBitmap

variable {m m' : EventBitmap} {e e' : Nat}

theorem and_bit_eq_zero (x : BitVec 64) {k : Nat} (hk : k < 64) : (x &&& (1#64 <<< k) == 0) = !x.getLsbD k := by
  have htwo : 1#64 <<< k = BitVec.twoPow 64 k := (BitVec.twoPow_eq 64 k).symm
  rw [htwo, BitVec.and_twoPow]
  by_cases hb : x.getLsbD k = true
  · have hne : BitVec.twoPow 64 k ≠ 0 := by
      intro hz
      have hbit := congrArg (fun v : BitVec 64 => v.getLsbD k) hz
      simp [hk] at hbit
    rw [if_pos hb, hb]
    exact beq_eq_false_iff_ne.2 hne
  · simp [hb]

theorem isAvailable_eq (m : EventBitmap) (e : Nat) : m.isAvailable e = !(m.bits (e / 64)).getLsbD (e % 64) :=
  and_bit_eq_zero _ (Nat.mod_lt e (by decide))

theorem index_eq : e' / 64 = e / 64 ∧ e' % 64 = e % 64 ↔ e' = e := by omega

theorem isAvailable_markInUse (m : EventBitmap) (e e' : Nat) :
    (m.markInUse e).isAvailable e' = (decide (e' ≠ e) && m.isAvailable e') := by
  rw [isAvailable_eq, isAvailable_eq]
  show (!(update m.bits (e / 64) _ (e' / 64)).getLsbD (e' % 64)) = _
  rw [update_apply]
  by_cases hw : e' / 64 = e / 64
  · rw [if_pos hw, BitVec.getLsbD_or, ← BitVec.twoPow_eq, BitVec.getLsbD_twoPow]
    by_cases hb : e' % 64 = e % 64
    · have he : e' = e := index_eq.1 ⟨hw, hb⟩
      simp [he, Nat.mod_lt e (show 0 < 64 by decide)]
    · have he : e' ≠ e := fun he => hb (by rw [he])
      simp [he, hw, Ne.symm hb]
  · have he : e' ≠ e := fun he => hw (by rw [he])
    rw [if_neg hw]
    simp [he]

theorem isAvailable_markAvailable (m : EventBitmap) (e e' : Nat) :
    (m.markAvailable e).isAvailable e' = (decide (e' = e) || m.isAvailable e') := by
  have hlt : e' % 64 < 64 := Nat.mod_lt e' (by decide)
  rw [isAvailable_eq, isAvailable_eq]
  show (!(update m.bits (e / 64) _ (e' / 64)).getLsbD (e' % 64)) = _
  rw [update_apply]
  by_cases hw : e' / 64 = e / 64
  · rw [if_pos hw, BitVec.getLsbD_and, BitVec.getLsbD_not, ← BitVec.twoPow_eq, BitVec.getLsbD_twoPow]
    by_cases hb : e' % 64 = e % 64
    · have he : e' = e := index_eq.1 ⟨hw, hb⟩
      simp [he, Nat.mod_lt e (show 0 < 64 by decide)]
    · have he : e' ≠ e := fun he => hb (by rw [he])
      simp [he, hw, Ne.symm hb, hlt]
  · have he : e' ≠ e := fun he => hw (by rw [he])
    rw [if_neg hw]
    simp [he]

theorem scan_spec (i : Nat) (m : EventBitmap) (hnext : m.nextIdx < m.size) :
    (scan i m).2.bits = m.bits ∧ (scan i m).2.size = m.size ∧ (scan i m).2.nextIdx < m.size ∧
      ∀ e, (scan i m).1 = some e → m.isAvailable e = true ∧ e < m.size := by
  induction i generalizing m with
  | zero => exact ⟨rfl, rfl, hnext, nofun⟩
  | succ i ih =>
    have hmod : (m.nextIdx + 1) % m.size < m.size := Nat.mod_lt _ (by omega)
    rw [scan]
    split_ifs with hfree
    · refine ⟨rfl, rfl, hmod, fun e he => ?_⟩
      cases he
      exact ⟨hfree, hnext⟩
    · exact ih { m with nextIdx := (m.nextIdx + 1) % m.size } hmod

theorem getEvent_spec (hnext : m.nextIdx < m.size) :
    m.getEvent.2.size = m.size ∧ m.getEvent.2.nextIdx < m.size ∧
      (∀ e, m.getEvent.1 = some e → m.isAvailable e = true ∧ e < m.size ∧
        ∀ e', m.getEvent.2.isAvailable e' = (decide (e' ≠ e) && m.isAvailable e')) ∧
      (m.getEvent.1 = none → ∀ e', m.getEvent.2.isAvailable e' = m.isAvailable e') := by
  obtain ⟨hbits, hsize, hidx, hfound⟩ := scan_spec m.size m hnext
  have hsame : ∀ e', (scan m.size m).2.isAvailable e' = m.isAvailable e' := by
    intro e'
    rw [isAvailable, isAvailable, hbits]
  unfold getEvent getAvailable
  cases hscan : scan m.size m with
  | mk found m' =>
    rw [hscan] at hsize hidx hfound hsame
    cases found with
    | none => exact ⟨hsize, hidx, nofun, fun _ => hsame⟩
    | some idx =>
      refine ⟨hsize, hidx, fun e he => ?_, nofun⟩
      cases he
      refine ⟨(hfound idx rfl).1, (hfound idx rfl).2, fun e' => ?_⟩
      rw [isAvailable_markInUse, hsame]

end EventBitmap

theorem Fifo.enqueue_some {f f' : Fifo} {consumed : UInt64} {idx : Nat} (h : f.enqueue consumed = (some idx, f')) :
    f.triggers idx = .available ∧ f' = { f with
      triggers := update f.triggers idx .enqueued, produced := f.produced + 1 } := by
  unfold Fifo.enqueue at h
  dsimp only at h
  split_ifs at h with hfull hbusy
  · cases h
  · cases h
  · cases h
    exact ⟨not_not.1 hbusy, rfl⟩

/-! ## Nodes and queues -/

/-- A reduction; the others go through the event pool. -/
def NodeData.isRed : NodeData → Bool
  | .red _ => true
  | _ => false

def QueueId.isRed : QueueId → Bool
  | .redReady => true
  | .redInflight => true
  | _ => false

section Counted
variable {dag : List DagNode} {s s' : Lanes} {ls : QueueId → List Nat} {D : List Nat} {cs : List Nat} {u v : Nat}

/-- The queues and counters agree with the nodes `D` that are complete, while the edges to `cs` are still to be counted
down. -/
structure Counted (dag : List DagNode) (s : Lanes) (ls : QueueId → List Nat) (D cs : List Nat) : Prop where
  spells : SpellsAll s.queues ls
  kind : ∀ i, ∀ v ∈ ls i, (nodeData dag v).map NodeData.isRed = some i.isRed
  parents : ∀ v, s.numParents v = (owed (dag.map (·.children)) D v + cs.count v : Nat)
  listed : ∀ v < dag.length, s.numParents v = 0 ↔ (∃ i, v ∈ ls i) ∨ v ∈ D
  pending : s.numPendingNodes = ((Finset.range dag.length).filter fun v => s.numParents v ≠ 0).card

variable {data : NodeData}

theorem nodeData_lt (h : nodeData dag u = some data) : u < dag.length := by
  obtain ⟨node, hnode, -⟩ := map_eq_some_iff.1 h
  exact (List.getElem?_eq_some_iff.1 hnode).1

theorem nodeData_of_lt (h : u < dag.length) : ∃ data, nodeData dag u = some data := by
  unfold nodeData
  rw [getElem?_eq_getElem h]
  exact ⟨_, rfl⟩

theorem Counted.lt (h : Counted dag s ls D cs) {i : QueueId} (hv : v ∈ ls i) : v < dag.length := by
  have hk := h.kind i v hv
  cases hd : nodeData dag v with
  | none =>
    rw [hd] at hk
    cases hk
  | some data => exact nodeData_lt hd

def QueueId.ready (red : Bool) : QueueId := if red then .redReady else .p2pReady

def QueueId.inflight (red : Bool) : QueueId := if red then .redInflight else .p2pInflight

@[simp] theorem QueueId.ready_isRed (red : Bool) : (QueueId.ready red).isRed = red := by cases red <;> rfl

theorem QueueId.inflight_ne_ready (red red' : Bool) : QueueId.inflight red ≠ QueueId.ready red' := by
  cases red <;> cases red' <;> decide

theorem enqueueReadyQueue_eq (h : nodeData dag v = some data) : s.enqueueReadyQueue dag v = (.success, { s with
      queues := s.queues.enqueue (.ready data.isRed) v, numPendingNodes := s.numPendingNodes - 1 }) := by
  unfold Lanes.enqueueReadyQueue
  rw [h]
  cases data <;> rfl

def joinReady (ls : QueueId → List Nat) (data : NodeData) (v : Nat) : QueueId → List Nat :=
  update ls (.ready data.isRed) (ls (.ready data.isRed) ++ [v])

theorem mem_joinReady {w : Nat} : (∃ i, w ∈ joinReady ls data v i) ↔ (∃ i, w ∈ ls i) ∨ w = v := by
  unfold joinReady
  constructor
  · rintro ⟨i, hi⟩
    rw [update_apply] at hi
    split_ifs at hi with he
    · rcases mem_append.1 hi with hi | hi
      · exact .inl ⟨_, hi⟩
      · exact .inr (mem_singleton.1 hi)
    · exact .inl ⟨i, hi⟩
  · rintro (⟨i, hi⟩ | rfl)
    · by_cases he : i = .ready data.isRed
      · refine ⟨i, ?_⟩
        rw [he] at hi ⊢
        rw [update_self]
        exact mem_append_left _ hi
      · exact ⟨i, by rw [update_of_ne he]; exact hi⟩
    · exact ⟨.ready data.isRed, by rw [update_self]; simp⟩

theorem Counted.release (h : Counted dag s ls D (v :: cs)) (hv : v < dag.length) :
    let t : Lanes := { s with numParents := update s.numParents v (s.numParents v - 1) }
    (t.numParents v ≠ 0 → Counted dag t ls D cs) ∧
    (t.numParents v = 0 → (∀ i, v ∉ ls i) ∧ v ∉ D ∧ ∀ data, nodeData dag v = some data →
      Counted dag { t with queues := t.queues.enqueue (.ready data.isRed) v, numPendingNodes := t.numPendingNodes - 1 }
        (joinReady ls data v) D cs) := by
  have hself : s.numParents v = (owed (dag.map (·.children)) D v + cs.count v : Nat) + 1 := by
    rw [h.parents v, count_cons_self]
    omega
  have hpos : s.numParents v ≠ 0 := by omega
  have hparents : ∀ w, update s.numParents v (s.numParents v - 1) w =
      (owed (dag.map (·.children)) D w + cs.count w : Nat) := by
    intro w
    rw [update_apply]
    split_ifs with hw
    · rw [hw]
      omega
    · rw [h.parents w, count_cons_of_ne (Ne.symm hw)]
  have hopen : (∀ i, v ∉ ls i) ∧ v ∉ D := by
    have hno := fun hin => hpos ((h.listed v hv).2 hin)
    exact ⟨fun i hi => hno (.inl ⟨i, hi⟩), fun hD => hno (.inr hD)⟩
  dsimp only
  rw [update_self]
  refine ⟨fun hne => ⟨h.spells, h.kind, hparents, fun w hw => ?_, ?_⟩, fun hz => ⟨hopen.1, hopen.2, fun data hdata => ?_⟩⟩
  · show update s.numParents v _ w = 0 ↔ _
    rw [update_apply]
    split_ifs with he
    · rw [he]
      exact iff_of_false hne fun hin => hpos ((h.listed v hv).2 hin)
    · exact h.listed w hw
  · rw [h.pending]
    congr 2
    refine Finset.filter_congr fun w _ => ?_
    show _ ↔ update s.numParents v _ w ≠ 0
    rw [update_apply]
    split_ifs with he
    · rw [he]
      exact iff_of_true hpos hne
    · exact Iff.rfl
  · refine ⟨h.spells.enqueue hopen.1, fun i w hw => ?_, hparents, fun w hw => ?_, ?_⟩
    · rw [joinReady, update_apply] at hw
      split_ifs at hw with he
      · rcases mem_append.1 hw with hw | hw
        · rw [he]
          exact h.kind _ w hw
        · rw [mem_singleton.1 hw, hdata, he, map_some, QueueId.ready_isRed]
      · exact h.kind i w hw
    · show update s.numParents v _ w = 0 ↔ (∃ i, w ∈ joinReady ls data v i) ∨ w ∈ D
      rw [mem_joinReady, update_apply]
      split_ifs with he
      · exact iff_of_true hz (.inl (.inr he))
      · rw [h.listed w hw, or_iff_left he]
    · show s.numPendingNodes - 1 = _
      have hset : ((Finset.range dag.length).filter fun w => update s.numParents v (s.numParents v - 1) w ≠ 0) =
          ((Finset.range dag.length).filter fun w => s.numParents w ≠ 0).erase v := by
        ext w
        rw [Finset.mem_erase, Finset.mem_filter, Finset.mem_filter, update_apply]
        split_ifs with he
        · exact iff_of_false (fun hw => hw.2 hz) fun hw => hw.1 he
        · exact (and_iff_right he).symm
      have hmem : v ∈ (Finset.range dag.length).filter fun w => s.numParents w ≠ 0 :=
        Finset.mem_filter.2 ⟨Finset.mem_range.2 hv, hpos⟩
      have hcard := Finset.card_erase_add_one hmem
      rw [hset, h.pending]
      omega

theorem Counted.releaseChildren (h : Counted dag s ls D cs) (hcs : ∀ v ∈ cs, v < dag.length) :
    ∃ s' ls', s.releaseChildren dag cs = (.success, s') ∧ Counted dag s' ls' D [] ∧
      ls' .p2pInflight = ls .p2pInflight ∧ ls' .redInflight = ls .redInflight ∧
      ∀ v, (∃ i, v ∈ ls' i) → (∃ i, v ∈ ls i) ∨ ((∀ i, v ∉ ls i) ∧ v ∉ D) := by
  induction cs generalizing s ls with
  | nil => exact ⟨s, ls, rfl, h, rfl, rfl, fun v hv => .inl hv⟩
  | cons v cs ih =>
    have hv := hcs v mem_cons_self
    obtain ⟨hkeep, hjoin⟩ := h.release hv
    rw [Lanes.releaseChildren]
    by_cases hz : update s.numParents v (s.numParents v - 1) v = 0
    · obtain ⟨hno, hD, hready⟩ := hjoin hz
      obtain ⟨data, hdata⟩ := nodeData_of_lt hv
      rw [if_pos hz, enqueueReadyQueue_eq hdata]
      obtain ⟨s', ls', he, hc, h1, h2, hnew⟩ := ih (hready data hdata) fun w hw => hcs w (mem_cons_of_mem v hw)
      have hother : ∀ i : QueueId, i ≠ .ready data.isRed → joinReady ls data v i = ls i := fun i hi => update_of_ne hi _ _
      refine ⟨s', ls', he, hc, ?_, ?_, fun w hw => ?_⟩
      · rw [h1, hother]
        unfold QueueId.ready
        split_ifs <;> simp
      · rw [h2, hother]
        unfold QueueId.ready
        split_ifs <;> simp
      · rcases hnew w hw with hin | ⟨hin, hwD⟩
        · rcases mem_joinReady.1 hin with hin | rfl
          · exact .inl hin
          · exact .inr ⟨hno, hD⟩
        · refine .inr ⟨fun i hi => ?_, hwD⟩
          obtain ⟨j, hj⟩ := mem_joinReady.2 (.inl ⟨i, hi⟩ : (∃ i, w ∈ ls i) ∨ w = v)
          exact hin j hj
    · rw [if_neg hz]
      exact ih (hkeep hz) fun w hw => hcs w (mem_cons_of_mem v hw)

end Counted

/-! ## The log -/

def Note.launches : Note → Option Nat
  | .launched u => some u
  | .completed _ => none

def Note.completes : Note → Option Nat
  | .launched _ => none
  | .completed u => some u

def launchedNodes (log : List Note) : List Nat := log.filterMap Note.launches

def completedNodes (log : List Note) : List Nat := log.filterMap Note.completes

section Log
variable {log ns : List Note} {u : Nat}

@[simp] theorem launchedNodes_append : launchedNodes (log ++ ns) = launchedNodes log ++ launchedNodes ns := filterMap_append

@[simp] theorem completedNodes_append : completedNodes (log ++ ns) = completedNodes log ++ completedNodes ns :=
  filterMap_append

theorem mem_launchedNodes : u ∈ launchedNodes log ↔ .launched u ∈ log := by
  unfold launchedNodes
  rw [mem_filterMap]
  constructor
  · rintro ⟨v, hv, he⟩
    cases v <;> cases he
    exact hv
  · exact fun h => ⟨_, h, rfl⟩

theorem mem_completedNodes : u ∈ completedNodes log ↔ .completed u ∈ log := by
  unfold completedNodes
  rw [mem_filterMap]
  constructor
  · rintro ⟨v, hv, he⟩
    cases v <;> cases he
    exact hv
  · exact fun h => ⟨_, h, rfl⟩

end Log

def AfterParents (dag : List DagNode) (pre : List Note) (note : Note) : Prop :=
  ∀ v, note = .launched v → ∀ u, Edge (dag.map (·.children)) u v → .completed u ∈ pre

/-! ## The runner -/

/-- Where a walk over a queue stands: `prev` ends what it has passed, and `curr` starts what is left. -/
def Cursor (l : List Nat) (prev curr : Option Nat) : Prop := ∃ l₁ l₂, l = l₁ ++ l₂ ∧ prev = l₁.getLast? ∧ curr = l₂.head?

/-- What is known at each place of the thread. -/
def Stands (dag : List DagNode) (log : List Note) (ls : QueueId → List Nat) : Pc → Prop
  | .p2pInflight prev curr => Cursor (ls .p2pInflight) prev curr
  | .redInflight prev curr => Cursor (ls .redInflight) prev curr
  | .finished => ∀ v < dag.length, v ∈ completedNodes log
  | .failed _ => False
  | _ => True

/-- Nodes of a queue hold indices that differ and satisfy `P`. -/
structure Holds (idx : Nat → Option Nat) (l : List Nat) (P : Nat → Prop) : Prop where
  has : ∀ v ∈ l, ∃ e, idx v = some e ∧ P e
  inj : ∀ u ∈ l, ∀ v ∈ l, idx u = idx v → u = v

/-- The runner agrees with the log. -/
structure Scheduled (dag : List DagNode) (s : Runner) (log : List Note) (ls : QueueId → List Nat) : Prop where
  counted : Counted dag s.toLanes ls (completedNodes log) []
  launched : (launchedNodes log).Perm (ls .p2pInflight ++ ls .redInflight ++ completedNodes log)
  once : (launchedNodes log).Nodup
  ready : ∀ v, v ∈ ls .p2pReady ∨ v ∈ ls .redReady → v ∉ launchedNodes log
  order : Justified (AfterParents dag) log
  events : Holds s.eventIdx (ls .p2pInflight) fun e => s.p2pEventMap.isAvailable e = false
  triggers : Holds s.triggerIdx (ls .redInflight) fun t => s.fifo.triggers t ≠ .available
  nextIdx : s.p2pEventMap.nextIdx < s.p2pEventMap.size
  stands : Stands dag log ls s.pc

section Holds
variable {idx : Nat → Option Nat} {l l' : List Nat} {P Q : Nat → Prop} {v e : Nat}

theorem Holds.join (h : Holds idx l P) (hv : v ∉ l) (hnew : ¬ P e) (hkeep : ∀ e', P e' → Q e') (hone : Q e) :
    Holds (update idx v (some e)) (l ++ [v]) Q := by
  have hold : ∀ u ∈ l, update idx v (some e) u = idx u := by
    intro u hu
    refine update_of_ne ?_ _ _
    rintro rfl
    exact hv hu
  have hfresh : ∀ u ∈ l, idx u ≠ some e := by
    intro u hu he
    obtain ⟨e', he', hp⟩ := h.has u hu
    rw [he] at he'
    cases he'
    exact hnew hp
  refine ⟨fun u hu => ?_, fun a ha b hb hab => ?_⟩
  · rcases mem_append.1 hu with hu | hu
    · rw [hold u hu]
      obtain ⟨e', he', hp⟩ := h.has u hu
      exact ⟨e', he', hkeep e' hp⟩
    · rw [mem_singleton.1 hu, update_self]
      exact ⟨e, rfl, hone⟩
  · rcases mem_append.1 ha with ha | ha <;> rcases mem_append.1 hb with hb | hb
    · rw [hold a ha, hold b hb] at hab
      exact h.inj a ha b hb hab
    · rw [mem_singleton.1 hb, update_self, hold a ha] at hab
      exact absurd hab (hfresh a ha)
    · rw [mem_singleton.1 ha, update_self, hold b hb] at hab
      exact absurd hab.symm (hfresh b hb)
    · rw [mem_singleton.1 ha, mem_singleton.1 hb]

theorem Holds.leave (h : Holds idx l P) {idx' : Nat → Option Nat} (hsub : ∀ u ∈ l', u ∈ l)
    (hsame : ∀ u ∈ l', idx' u = idx u) (hkeep : ∀ u ∈ l', ∀ e, idx u = some e → P e → Q e) : Holds idx' l' Q := by
  refine ⟨fun u hu => ?_, fun a ha b hb hab => ?_⟩
  · obtain ⟨e, he, hp⟩ := h.has u (hsub u hu)
    exact ⟨e, (hsame u hu).trans he, hkeep u hu e he hp⟩
  · rw [hsame a ha, hsame b hb] at hab
    exact h.inj a (hsub a ha) b (hsub b hb) hab

theorem Holds.mono (h : Holds idx l P) (hkeep : ∀ e, P e → Q e) : Holds idx l Q :=
  h.leave (fun _ hu => hu) (fun _ _ => rfl) fun _ _ e _ => hkeep e

end Holds

def InFlight (log : List Note) (u : Nat) : Prop := .launched u ∈ log ∧ .completed u ∉ log

/-- What holds at every moment, after a failure too. -/
structure Safe (dag : List DagNode) (s : Runner) (log : List Note) : Prop where
  once : (launchedNodes log).Nodup
  order : Justified (AfterParents dag) log
  events : ∀ u v, InFlight log u → InFlight log v → (nodeData dag u).map NodeData.isRed = some false →
    (nodeData dag v).map NodeData.isRed = some false → s.eventIdx u = s.eventIdx v → u = v
  triggers : ∀ u v, InFlight log u → InFlight log v → (nodeData dag u).map NodeData.isRed = some true →
    (nodeData dag v).map NodeData.isRed = some true → s.triggerIdx u = s.triggerIdx v → u = v
  pending : 0 ≤ s.numPendingNodes

section Scheduled
variable {dag : List DagNode} {s : Runner} {log : List Note} {ls : QueueId → List Nat} {ans : Answers}

theorem Scheduled.inFlight (h : Scheduled dag s log ls) {u : Nat} (hu : InFlight log u) :
    u ∈ ls .p2pInflight ∨ u ∈ ls .redInflight := by
  have hmem := h.launched.mem_iff.1 (mem_launchedNodes.2 hu.1)
  rw [mem_append, mem_append] at hmem
  exact hmem.resolve_right fun hc => hu.2 (mem_completedNodes.1 hc)

theorem Scheduled.inFlight_kind (h : Scheduled dag s log ls) {u : Nat} (hu : InFlight log u) {red : Bool}
    (hk : (nodeData dag u).map NodeData.isRed = some red) :
    u ∈ ls (if red then .redInflight else .p2pInflight) := by
  rcases h.inFlight hu with hin | hin
  · have hkind := h.counted.kind _ u hin
    rw [hk] at hkind
    cases some.inj hkind
    exact hin
  · have hkind := h.counted.kind _ u hin
    rw [hk] at hkind
    cases some.inj hkind
    exact hin

theorem Scheduled.safe (h : Scheduled dag s log ls) : Safe dag s log := by
  refine ⟨h.once, h.order, fun u v hu hv hku hkv he => ?_, fun u v hu hv hku hkv he => ?_, ?_⟩
  · exact h.events.inj u (h.inFlight_kind hu hku) v (h.inFlight_kind hv hkv) he
  · exact h.triggers.inj u (h.inFlight_kind hu hku) v (h.inFlight_kind hv hkv) he
  · rw [h.counted.pending]
    exact Int.natCast_nonneg _

theorem Safe.congr {s' : Runner} (h : Safe dag s log) (he : s'.eventIdx = s.eventIdx) (ht : s'.triggerIdx = s.triggerIdx)
    (hp : s'.numPendingNodes = s.numPendingNodes) : Safe dag s' log := by
  refine ⟨h.once, h.order, ?_, ?_, ?_⟩
  · rw [he]
    exact h.events
  · rw [ht]
    exact h.triggers
  · rw [hp]
    exact h.pending

section

variable (h : Scheduled dag s log ls)
include h

theorem Scheduled.goto {p : Pc} (hpc : Stands dag log ls p) :
    Scheduled dag { s with pc := p } log ls := { h with stands := hpc }

theorem Scheduled.all_complete (hempty : ∀ i, ls i = []) (hp : s.numPendingNodes = 0) :
    ∀ v < dag.length, v ∈ completedNodes log := by
  intro v hv
  have hcard := h.counted.pending
  rw [hp] at hcard
  have hnone : ((Finset.range dag.length).filter fun v => s.numParents v ≠ 0) = ∅ :=
    Finset.card_eq_zero.1 (by exact_mod_cast hcard.symm)
  have hz : s.numParents v = 0 := by
    by_contra hne
    have hmem : v ∈ (Finset.range dag.length).filter fun v => s.numParents v ≠ 0 :=
      Finset.mem_filter.2 ⟨Finset.mem_range.2 hv, hne⟩
    rw [hnone] at hmem
    exact Finset.notMem_empty v hmem
  rcases (h.counted.listed v hv).1 hz with ⟨i, hi⟩ | hD
  · rw [hempty i] at hi
    exact absurd hi not_mem_nil
  · exact hD

theorem Scheduled.all_empty (hall : ∀ v < dag.length, v ∈ completedNodes log) : (∀ i, ls i = []) ∧ s.numPendingNodes = 0 := by
  have hnodup := h.launched.nodup_iff.1 h.once
  have hapart := (nodup_append.1 hnodup).2.2
  constructor
  · intro i
    refine eq_nil_iff_forall_not_mem.2 fun v hv => ?_
    have hD := hall v (h.counted.lt hv)
    have hL : v ∈ launchedNodes log := h.launched.mem_iff.2 (mem_append_right _ hD)
    cases i with
    | p2pReady => exact h.ready v (.inl hv) hL
    | redReady => exact h.ready v (.inr hv) hL
    | p2pInflight => exact hapart v (mem_append_left _ hv) v hD rfl
    | redInflight => exact hapart v (mem_append_right _ hv) v hD rfl
  · rw [h.counted.pending]
    refine Int.natCast_eq_zero.2 (Finset.card_eq_zero.2 (Finset.filter_eq_empty_iff.2 fun v hv hne => hne ?_))
    have hlt := Finset.mem_range.1 hv
    exact (h.counted.listed v hlt).2 (.inr (hall v hlt))

theorem Scheduled.busy (hacyclic : Acyclic (dag.map (·.children))) {u : Nat} (hu : u < dag.length)
    (hD : u ∉ completedNodes log) : ∃ i, ls i ≠ [] := by
  obtain ⟨v, hv, hvD, hpre⟩ := hacyclic.exists_source (by rw [length_map]; exact hu) hD
  rw [length_map] at hv
  have hz : s.numParents v = 0 := by
    rw [h.counted.parents v, owed_eq_zero.2 hpre]
    rfl
  obtain ⟨i, hi⟩ := ((h.counted.listed v hv).1 hz).resolve_right hvD
  exact ⟨i, ne_nil_of_mem hi⟩

end

end Scheduled

end FlagCX.UniRunner
