import FlagCX.UniRunner.Scheduling

/-!
# The runs of the scheduler

Every iteration keeps the runner in agreement with the log (`Scheduled.step`), whatever the device answers, and
`runUniRunner_schedules` reads the agreement at every state of a run that starts from a well-formed DAG.

* `Scheduled.launch`, `Scheduled.complete` : a node goes in flight, and is seen complete.
* `Scheduled.step`    : one iteration of the thread.
* `Scheduled.leaves`  : the way out of the loop.
-/

namespace FlagCX.UniRunner
open List Function

open Lib Dag

section Scheduled
variable {dag : List DagNode} {s : Runner} {log : List Note} {ls : QueueId → List Nat} {ans : Answers}

/-! ## A launch -/

def launchLists (ls : QueueId → List Nat) (r : Bool) (x : Nat) (l : List Nat) : QueueId → List Nat :=
  let ls' := update ls (.ready r) l
  update ls' (.inflight r) (ls' (.inflight r) ++ [x])

variable {r : Bool} {x : Nat} {l l₁ l₂ : List Nat}

theorem mem_launchLists (hl : ls (.ready r) = x :: l) {v : Nat} : (∃ i, v ∈ launchLists ls r x l i) ↔ ∃ i, v ∈ ls i := by
  have hother : ∀ i : QueueId, i ≠ .ready r → i ≠ .inflight r → launchLists ls r x l i = ls i := by
    intro i hr hi
    rw [launchLists, update_of_ne hi, update_of_ne hr]
  have hready : launchLists ls r x l (.ready r) = l := by cases r <;> rfl
  have hinflight : launchLists ls r x l (.inflight r) = ls (.inflight r) ++ [x] := by cases r <;> rfl
  constructor
  · rintro ⟨i, hi⟩
    by_cases hr : i = .ready r
    · rw [hr, hready] at hi
      exact ⟨.ready r, by rw [hl]; exact mem_cons_of_mem x hi⟩
    by_cases hf : i = .inflight r
    · rw [hf, hinflight] at hi
      rcases mem_append.1 hi with hi | hi
      · exact ⟨_, hi⟩
      · exact ⟨.ready r, by rw [hl, mem_singleton.1 hi]; exact mem_cons_self⟩
    · exact ⟨i, by rwa [hother i hr hf] at hi⟩
  · rintro ⟨i, hi⟩
    by_cases hr : i = .ready r
    · rw [hr, hl] at hi
      rcases mem_cons.1 hi with rfl | hi
      · exact ⟨.inflight r, by rw [hinflight]; simp⟩
      · exact ⟨.ready r, by rwa [hready]⟩
    by_cases hf : i = .inflight r
    · exact ⟨.inflight r, by rw [hinflight]; exact mem_append_left _ (hf.symm ▸ hi)⟩
    · exact ⟨i, by rwa [hother i hr hf]⟩

theorem Scheduled.launch_kind (h : Scheduled dag s log ls) (hl : ls (.ready r) = x :: l) :
    ∀ i, ∀ v ∈ launchLists ls r x l i, (nodeData dag v).map NodeData.isRed = some i.isRed := by
  have hx : (nodeData dag x).map NodeData.isRed = some r := by
    rw [h.counted.kind (.ready r) x (by rw [hl]; exact mem_cons_self)]
    cases r <;> rfl
  intro i v hv
  rw [launchLists, update_apply] at hv
  split_ifs at hv with hf
  · rcases mem_append.1 hv with hv | hv
    · rw [hf]
      exact h.counted.kind _ v (by cases r <;> exact hv)
    · rw [mem_singleton.1 hv, hx, hf]
      cases r <;> rfl
  · rw [update_apply] at hv
    split_ifs at hv with hr
    · rw [hr]
      exact h.counted.kind _ v (by rw [hl]; exact mem_cons_of_mem x hv)
    · exact h.counted.kind i v hv

variable {q : Queues QueueId Nat}

theorem Scheduled.launch (h : Scheduled dag s log ls) (hl : ls (.ready r) = x :: l) {s' : Runner} (hq : s.queues.dequeue (.ready r) = some (x, q))
    (hlanes : s'.toLanes = { s.toLanes with queues := q.enqueue (.inflight r) x })
    (hevents : Holds s'.eventIdx (launchLists ls r x l .p2pInflight) fun e => s'.p2pEventMap.isAvailable e = false)
    (htriggers : Holds s'.triggerIdx (launchLists ls r x l .redInflight) fun t => s'.fifo.triggers t ≠ .available)
    (hnext : s'.p2pEventMap.nextIdx < s'.p2pEventMap.size)
    (hpc : Stands dag (log ++ [.launched x]) (launchLists ls r x l) s'.pc) :
    Scheduled dag s' (log ++ [.launched x]) (launchLists ls r x l) := by
  have hxin : x ∈ ls (.ready r) := by
    rw [hl]
    exact mem_cons_self
  have hnot : x ∉ launchedNodes log := by
    refine h.ready x ?_
    cases r
    · exact .inl hxin
    · exact .inr hxin
  have hD : completedNodes (log ++ [.launched x]) = completedNodes log := by
    rw [completedNodes_append]
    exact append_nil _
  have hL : launchedNodes (log ++ [.launched x]) = launchedNodes log ++ [x] := launchedNodes_append
  have hzero := (h.counted.listed x (h.counted.lt hxin)).2 (.inl ⟨_, hxin⟩)
  obtain ⟨q', hq', hspells⟩ := h.counted.spells.dequeue hl
  rw [hq] at hq'
  cases hq'
  have hout : ∀ j, x ∉ update ls (.ready r) l j := by
    intro j hj
    rw [update_apply] at hj
    split_ifs at hj with hr
    · have hnodup := (h.counted.spells.spells (.ready r)).nodup
      rw [hl] at hnodup
      exact (nodup_cons.1 hnodup).1 hj
    · exact hr (h.counted.spells.apart j _ x hj hxin)
  refine ⟨⟨?_, h.launch_kind hl, ?_, ?_, ?_⟩, ?_, ?_, ?_, ?_, hevents, htriggers, hnext, hpc⟩
  · rw [hlanes]
    exact hspells.enqueue hout
  · rw [hlanes, hD]
    exact h.counted.parents
  · intro v hv
    rw [hlanes, hD, mem_launchLists hl]
    exact h.counted.listed v hv
  · rw [hlanes]
    exact h.counted.pending
  · rw [hL, hD]
    refine (h.launched.append_right [x]).trans ?_
    cases r
    · show (ls .p2pInflight ++ ls .redInflight ++ completedNodes log ++ [x]).Perm
        (ls .p2pInflight ++ [x] ++ ls .redInflight ++ completedNodes log)
      rw [append_assoc, append_assoc, append_assoc, append_assoc]
      refine List.Perm.append_left _ ?_
      rw [← append_assoc]
      exact perm_append_comm
    · show (ls .p2pInflight ++ ls .redInflight ++ completedNodes log ++ [x]).Perm
        (ls .p2pInflight ++ (ls .redInflight ++ [x]) ++ completedNodes log)
      rw [append_assoc, ← append_assoc (ls .p2pInflight), append_assoc _ [x]]
      exact perm_append_comm.append_left _
  · rw [hL]
    exact nodup_append.2 ⟨h.once, nodup_singleton x, fun a ha b hb => by
      rw [mem_singleton.1 hb]
      rintro rfl
      exact hnot ha⟩
  · intro v hv hin
    rw [hL] at hin
    have hold : v ∈ ls .p2pReady ∨ v ∈ ls .redReady := by
      cases r
      · exact hv.imp_left fun hv => by rw [show ls .p2pReady = x :: l from hl]; exact mem_cons_of_mem x hv
      · exact hv.imp_right fun hv => by rw [show ls .redReady = x :: l from hl]; exact mem_cons_of_mem x hv
    rcases mem_append.1 hin with hin | hin
    · exact h.ready v hold hin
    · rw [mem_singleton.1 hin] at hv
      cases r
      · exact hv.elim (hout .p2pReady) (hout .redReady)
      · exact hv.elim (hout .p2pReady) (hout .redReady)
  · refine h.order.concat fun v hv u hu => ?_
    cases hv
    rw [h.counted.parents] at hzero
    have howed : owed (dag.map (·.children)) (completedNodes log) x = 0 := by omega
    exact mem_completedNodes.1 (owed_eq_zero.1 howed u hu)

/-! ## A completion -/

theorem childrenOf_eq (dag : List DagNode) (u : Nat) : childrenOf dag u = (dag.map (·.children)).getD u [] := by
  rw [childrenOf, getD_eq_getElem?_getD, getElem?_map]

theorem Scheduled.completing (h : Scheduled dag s log ls) (hx : x ∈ ls (.inflight r)) :
    Counted dag s.toLanes ls (completedNodes log ++ [x]) (childrenOf dag x) := by
  have hD : x ∉ completedNodes log := by
    have hnodup := h.launched.nodup_iff.1 h.once
    refine fun hD => (nodup_append.1 hnodup).2.2 x ?_ x hD rfl
    cases r
    · exact mem_append_left _ hx
    · exact mem_append_right _ hx
  have hlt : x < (dag.map (·.children)).length := by
    rw [length_map]
    exact h.counted.lt hx
  refine ⟨h.counted.spells, h.counted.kind, fun v => ?_, fun v hv => ?_, h.counted.pending⟩
  · have hsame : owed (dag.map (·.children)) (completedNodes log ++ [x]) v =
        owed (dag.map (·.children)) (x :: completedNodes log) v :=
      owed_congr (fun u => by rw [mem_append, mem_singleton, mem_cons, or_comm]) v
    rw [h.counted.parents v, hsame, owed_cons hlt hD, childrenOf_eq]
    rfl
  · rw [h.counted.listed v hv, mem_append, mem_singleton, ← or_assoc]
    refine ⟨.inl, fun hor => hor.elim id ?_⟩
    rintro rfl
    exact .inl ⟨_, hx⟩

theorem mem_leave (hl : ls (.inflight r) = l₁ ++ x :: l₂) {v : Nat} :
    (∃ i, v ∈ ls i) ↔ (∃ i, v ∈ update ls (.inflight r) (l₁ ++ l₂) i) ∨ v = x ∧ v ∈ ls (.inflight r) := by
  constructor
  · rintro ⟨i, hi⟩
    by_cases hf : i = .inflight r
    · rw [hf] at hi
      by_cases hx : v = x
      · exact .inr ⟨hx, hi⟩
      · refine .inl ⟨.inflight r, ?_⟩
        rw [hl] at hi
        simpa [hx] using hi
    · exact .inl ⟨i, by rwa [update_of_ne hf]⟩
  · rintro (⟨i, hi⟩ | ⟨rfl, hi⟩)
    · rw [update_apply] at hi
      split_ifs at hi with hf
      · refine ⟨.inflight r, ?_⟩
        rw [hl]
        exact ((sublist_cons_self x l₂).append_left l₁).subset hi
      · exact ⟨i, hi⟩
    · exact ⟨_, hi⟩

variable {t : Runner}

theorem Scheduled.complete (h : Scheduled dag s log ls) (hchildren : ∀ v ∈ childrenOf dag x, v < dag.length)
    (hl : ls (.inflight r) = l₁ ++ x :: l₂) (hlanes : t.toLanes = s.toLanes)
    (hevents : Holds t.eventIdx (if r then ls .p2pInflight else l₁ ++ l₂) fun e => t.p2pEventMap.isAvailable e = false)
    (htriggers : Holds t.triggerIdx (if r then l₁ ++ l₂ else ls .redInflight) fun e => t.fifo.triggers e ≠ .available)
    (hnext : t.p2pEventMap.nextIdx < t.p2pEventMap.size) {pc : Option Nat → Pc}
    (hpc : pc = if r then .redInflight l₁.getLast? else .p2pInflight l₁.getLast?) :
    ∃ t' ls', t.complete dag (.inflight r) l₁.getLast? x pc = (t', [.completed x]) ∧
      Scheduled dag t' (log ++ [.completed x]) ls' := by
  have hxin : x ∈ ls (.inflight r) := by
    rw [hl]
    simp
  obtain ⟨lanes, ls₁, hrelease, hc, hp, hr, hnew⟩ := (h.completing hxin).releaseChildren hchildren
  have hsame : ls₁ (.inflight r) = l₁ ++ x :: l₂ := by
    rw [← hl]
    cases r
    · exact hp
    · exact hr
  obtain ⟨hfst, hspells⟩ := hc.spells.remove hsame
  have hcomplete : t.complete dag (.inflight r) l₁.getLast? x pc =
      ({ t with
        toLanes := { lanes with queues := (lanes.queues.remove (.inflight r) l₁.getLast?).2 }
        pc := pc (lanes.queues.remove (.inflight r) l₁.getLast?).1 }, [.completed x]) := by
    unfold Runner.complete
    rw [hlanes, hrelease]
  refine ⟨_, update ls₁ (.inflight r) (l₁ ++ l₂), hcomplete, ?_⟩
  have hD : completedNodes (log ++ [.completed x]) = completedNodes log ++ [x] := completedNodes_append
  have hL : launchedNodes (log ++ [.completed x]) = launchedNodes log := by
    rw [launchedNodes_append]
    exact append_nil _
  have hother : ∀ r', update ls₁ (.inflight r) (l₁ ++ l₂) (.ready r') = ls₁ (.ready r') :=
    fun r' => update_of_ne (QueueId.inflight_ne_ready r r').symm _ _
  have hperm : (launchedNodes log).Perm (update ls₁ (.inflight r) (l₁ ++ l₂) .p2pInflight ++
      update ls₁ (.inflight r) (l₁ ++ l₂) .redInflight ++ (completedNodes log ++ [x])) := by
    refine h.launched.trans ?_
    have hleave : (l₁ ++ x :: l₂).Perm (l₁ ++ l₂ ++ [x]) := by
      rw [append_assoc]
      have hcomm : ([x] ++ l₂).Perm (l₂ ++ [x]) := perm_append_comm
      exact hcomm.append_left l₁
    cases r
    · show (ls .p2pInflight ++ ls .redInflight ++ completedNodes log).Perm
        (l₁ ++ l₂ ++ ls₁ .redInflight ++ (completedNodes log ++ [x]))
      rw [hr, show ls .p2pInflight = l₁ ++ x :: l₂ from hl, append_assoc, append_assoc (l₁ ++ l₂)]
      refine (hleave.append_right _).trans ?_
      rw [append_assoc]
      refine List.Perm.append_left _ ?_
      rw [← append_assoc (ls .redInflight)]
      exact perm_append_comm
    · show (ls .p2pInflight ++ ls .redInflight ++ completedNodes log).Perm
        (ls₁ .p2pInflight ++ (l₁ ++ l₂) ++ (completedNodes log ++ [x]))
      rw [hp, show ls .redInflight = l₁ ++ x :: l₂ from hl, append_assoc, append_assoc (ls .p2pInflight)]
      refine List.Perm.append_left _ ((hleave.append_right _).trans ?_)
      rw [append_assoc]
      exact List.Perm.append_left _ perm_append_comm
  refine ⟨⟨hspells, fun i v hv => ?_, ?_, fun v hv => ?_, hc.pending⟩, ?_, ?_, ?_, ?_, ?_, ?_, hnext, ?_⟩
  · rw [update_apply] at hv
    split_ifs at hv with hf
    · rw [hf]
      refine hc.kind _ v ?_
      rw [hsame]
      exact ((sublist_cons_self x l₂).append_left l₁).subset hv
    · exact hc.kind i v hv
  · rw [hD]
    exact hc.parents
  · rw [hD]
    refine (hc.listed v hv).trans ?_
    rw [mem_leave hsame]
    constructor
    · rintro ((hin | ⟨rfl, -⟩) | hin)
      · exact .inl hin
      · exact .inr (by simp)
      · exact .inr hin
    · exact fun hin => hin.imp_left .inl
  · rw [hL, hD]
    exact hperm
  · rw [hL]
    exact h.once
  · rw [hL]
    intro v hv hin
    have hv₁ : ∃ r', v ∈ ls₁ (.ready r') := by
      rcases hv with hv | hv
      · exact ⟨false, by rwa [← hother false]⟩
      · exact ⟨true, by rwa [← hother true]⟩
    obtain ⟨r', hv₁⟩ := hv₁
    rcases hnew v ⟨_, hv₁⟩ with ⟨i, hi⟩ | ⟨hno, hnD⟩
    · cases i with
      | p2pReady => exact h.ready v (.inl hi) hin
      | redReady => exact h.ready v (.inr hi) hin
      | p2pInflight =>
        rw [← hp] at hi
        exact QueueId.inflight_ne_ready false r' (hc.spells.apart _ _ v hi hv₁)
      | redInflight =>
        rw [← hr] at hi
        exact QueueId.inflight_ne_ready true r' (hc.spells.apart _ _ v hi hv₁)
    · have hmem := h.launched.mem_iff.1 hin
      rw [mem_append, mem_append] at hmem
      rcases hmem with (hmem | hmem) | hmem
      · exact hno _ hmem
      · exact hno _ hmem
      · exact hnD (mem_append_left _ hmem)
  · exact h.order.append_idle fun v hv pre w he => by
      rw [mem_singleton.1 hv] at he
      cases he
  · cases r
    · exact hevents
    · show Holds t.eventIdx (ls₁ .p2pInflight) _
      rw [hp]
      exact hevents
  · cases r
    · show Holds t.triggerIdx (ls₁ .redInflight) _
      rw [hr]
      exact htriggers
    · exact htriggers
  · rw [hpc, hfst]
    cases r
    · exact ⟨l₁, l₂, rfl, rfl, rfl⟩
    · exact ⟨l₁, l₂, rfl, rfl, rfl⟩

/-! ## One iteration -/

def Stays (dag : List DagNode) (s : Runner) (log : List Note) : Prop :=
  (∃ ls, Scheduled dag s log ls) ∨ (Safe dag s log ∧ ∃ result, s.pc = .failed result)

section

variable (h : Scheduled dag s log ls)
include h

theorem Scheduled.idle : Stays dag s (log ++ []) := by
  rw [append_nil]
  exact .inl ⟨ls, h⟩

theorem Scheduled.isEmpty (i : QueueId) : s.queues.isEmpty i = true ↔ ls i = [] := h.counted.spells.isEmpty i

theorem Scheduled.head (i : QueueId) : s.queues.head i = (ls i).head? := (h.counted.spells.spells i).head

theorem Scheduled.exit_iff : (s.queues.isEmpty .p2pReady && s.queues.isEmpty .redReady && s.queues.isEmpty .p2pInflight &&
      s.queues.isEmpty .redInflight && s.numPendingNodes == 0) = true ↔ ∀ v < dag.length, v ∈ completedNodes log := by
  simp only [Bool.and_eq_true, h.isEmpty, beq_iff_eq]
  constructor
  · rintro ⟨⟨⟨⟨h₁, h₂⟩, h₃⟩, h₄⟩, hp⟩
    refine h.all_complete (fun i => ?_) hp
    cases i with
    | p2pReady => exact h₁
    | redReady => exact h₂
    | p2pInflight => exact h₃
    | redInflight => exact h₄
  · intro hall
    obtain ⟨hempty, hp⟩ := h.all_empty hall
    exact ⟨⟨⟨⟨hempty _, hempty _⟩, hempty _⟩, hempty _⟩, hp⟩

end

variable {out : Runner × List Note}

theorem Scheduled.stepHead (h : Scheduled dag s log ls) (hpc : s.pc = .head)
    (hstep : s.step dag ans = some out) : Stays dag out.1 (log ++ out.2) := by
  unfold Runner.step at hstep
  rw [hpc] at hstep
  split_ifs at hstep with hexit
  · cases hstep
    have hend : Scheduled dag { s with
        fifo := { s.fifo with terminate := true }
        pc := .finished } log ls := { h with stands := h.exit_iff.1 hexit }
    exact hend.idle
  · cases hstep
    exact (h.goto (p := .p2pReady) trivial).idle

theorem runnerRunGroup_settled (start body stop : Result) : runnerRunGroup start body stop ≠ .inProgress := by
  cases start <;> cases body <;> cases stop <;> decide

theorem launchResult_settled (hset : ans.Settled) {data : NodeData} {result : Result}
    (h : launchResult ans data = some result) : result ≠ .inProgress := by
  cases data with
  | p2p ops =>
    cases h
    exact runnerRunGroup_settled _ _ _
  | cpy data =>
    cases h
    exact hset.1
  | red data => cases h

theorem accepted_iff {result : Result} (h : result ≠ .inProgress) :
    runnerResultAccepted result = true ↔ result = .success := by
  simp [runnerResultAccepted, h]

theorem launchP2pOps_cases {e : Nat} (hset : ans.Settled)
    (hq : t.queues.dequeue .p2pReady = some (x, q)) (hkind : (nodeData dag x).map NodeData.isRed = some false) :
    (t.launchP2pOps dag ans e = (.success,
      { t with queues := q.enqueue .p2pInflight x, eventIdx := update t.eventIdx x (some e) }, [.launched x])) ∨
    ∃ result, runnerResultAccepted result = false ∧ t.launchP2pOps dag ans e =
      (result, { t with queues := q, p2pEventMap := t.p2pEventMap.markAvailable e }, []) := by
  obtain ⟨data, hdata, hred⟩ := Option.map_eq_some_iff.1 hkind
  obtain ⟨result, hresult⟩ : ∃ result, launchResult ans data = some result := by
    cases data with
    | p2p ops => exact ⟨_, rfl⟩
    | cpy data => exact ⟨_, rfl⟩
    | red data => cases hred
  have hbind : (nodeData dag x).bind (launchResult ans) = some result := by
    rw [hdata]
    exact hresult
  have hsettled := launchResult_settled hset hresult
  unfold Runner.launchP2pOps
  rw [hq]
  dsimp only
  rw [hbind]
  dsimp only
  by_cases hok : result ≠ .success
  · rw [if_pos hok]
    exact .inr ⟨result, Bool.eq_false_iff.2 fun ha => hok ((accepted_iff hsettled).1 ha), rfl⟩
  rw [if_neg hok]
  by_cases hrec : ans.eventRecord ≠ .success
  · rw [if_pos hrec]
    exact .inr ⟨_, Bool.eq_false_iff.2 fun ha => hrec ((accepted_iff hset.2).1 ha), rfl⟩
  · rw [if_neg hrec]
    exact .inl rfl

theorem Scheduled.failing (h : Scheduled dag s log ls) (he : t.eventIdx = s.eventIdx)
    (ht : t.triggerIdx = s.triggerIdx) (hp : t.numPendingNodes = s.numPendingNodes) (result : Result) :
    Stays dag (t.fail result) (log ++ []) := by
  rw [append_nil]
  exact .inr ⟨h.safe.congr he ht hp, result, rfl⟩

theorem Scheduled.stepP2pReady (h : Scheduled dag s log ls) (hset : ans.Settled) (hpc : s.pc = .p2pReady) :
    Stays dag (s.stepP2pReady dag ans).1 (log ++ (s.stepP2pReady dag ans).2) := by
  obtain ⟨hsize, hidx, hsome, hnone⟩ := EventBitmap.getEvent_spec h.nextIdx
  rw [← hsize] at hidx
  unfold Runner.stepP2pReady
  split_ifs with hempty
  · exact (h.goto (p := .redReady) trivial).idle
  cases hget : s.p2pEventMap.getEvent with
  | mk found map =>
    rw [hget] at hidx hsome hnone
    cases found with
    | none =>
      have hevents := h.events.mono fun e he => (hnone rfl e).trans he
      have hfull : Scheduled dag { s with p2pEventMap := map, pc := .redReady } log ls :=
        { h with events := hevents, nextIdx := hidx, stands := trivial }
      exact hfull.idle
    | some e =>
      obtain ⟨hfree, -, hmap⟩ := hsome e rfl
      dsimp only at hmap ⊢
      obtain ⟨x, l, hl⟩ := exists_cons_of_ne_nil fun hnil => hempty ((h.isEmpty .p2pReady).2 hnil)
      obtain ⟨q, hq, -⟩ := h.counted.spells.dequeue hl
      have hkind := h.counted.kind .p2pReady x (by rw [hl]; exact mem_cons_self)
      rcases launchP2pOps_cases (t := { s with p2pEventMap := map }) (e := e) hset hq hkind with heq | ⟨result, hno, heq⟩
      swap
      · rw [heq, if_neg (Bool.eq_false_iff.1 hno)]
        exact h.failing (t := { s with queues := q, p2pEventMap := map.markAvailable e }) rfl rfl rfl result
      rw [heq, if_pos (show runnerResultAccepted .success = true by decide)]
      have hx : x ∉ ls .p2pInflight := by
        intro hin
        have := h.counted.spells.apart .p2pReady .p2pInflight x (by rw [hl]; exact mem_cons_self) hin
        cases this
      refine .inl ⟨launchLists ls false x l, h.launch (r := false) hl hq rfl ?_ h.triggers hidx ?_⟩
      · refine h.events.join hx ?_ (fun e' he' => ?_) ?_
        · rw [hfree]
          exact Bool.noConfusion
        · rw [hmap, he', Bool.and_false]
        · rw [hmap]
          simp
      · rw [hpc]
        trivial

theorem Scheduled.stepRedReady (h : Scheduled dag s log ls) (hpc : s.pc = .redReady) :
    Stays dag (s.stepRedReady ans).1 (log ++ (s.stepRedReady ans).2) := by
  have hleave : Stays dag { s with pc := .p2pInflight none (s.queues.head .p2pInflight) } (log ++ []) := by
    refine (h.goto (p := .p2pInflight none _) ⟨[], ls .p2pInflight, rfl, rfl, h.head _⟩).idle
  unfold Runner.stepRedReady
  rw [h.head .redReady]
  cases hl : ls .redReady with
  | nil => exact hleave
  | cons x l =>
    cases henq : s.fifo.enqueue ans.consumed with
    | mk found fifo =>
      cases found with
      | none => exact hleave
      | some t =>
        obtain ⟨hfree, hfifo⟩ := Fifo.enqueue_some henq
        obtain ⟨q, hq, -⟩ := h.counted.spells.dequeue hl
        rw [hq]
        have hx : x ∉ ls .redInflight := by
          intro hin
          have := h.counted.spells.apart .redReady .redInflight x (by rw [hl]; exact mem_cons_self) hin
          cases this
        refine .inl ⟨launchLists ls true x l, h.launch (r := true) hl hq rfl h.events ?_ h.nextIdx ?_⟩
        · refine h.triggers.join hx (not_not.2 hfree) (fun t' ht' => ?_) ?_
          · have hne : t' ≠ t := by
              rintro rfl
              exact ht' hfree
            rw [hfifo]
            show update s.fifo.triggers t .enqueued t' ≠ .available
            rwa [update_of_ne hne]
          · rw [hfifo]
            show update s.fifo.triggers t .enqueued t ≠ .available
            rw [update_self]
            exact TriggerState.noConfusion
        · rw [hpc]
          trivial

variable {prev : Option Nat}

section

variable (h : Scheduled dag s log ls)
include h

theorem Scheduled.at_node (hcursor : Cursor (ls (.inflight r)) prev (some x)) :
    ∃ l₁ l₂, ls (.inflight r) = l₁ ++ x :: l₂ ∧ prev = l₁.getLast? ∧
      Cursor (ls (.inflight r)) (some x) (s.queues.next x) ∧ ∀ u ∈ l₁ ++ l₂, u ∈ ls (.inflight r) ∧ u ≠ x := by
  obtain ⟨l₁, l, hl, hprev, hcurr⟩ := hcursor
  obtain ⟨l₂, rfl⟩ : ∃ l₂, l = x :: l₂ := by
    cases l with
    | nil => cases hcurr
    | cons y l₂ =>
      cases hcurr
      exact ⟨l₂, rfl⟩
  have hspells := h.counted.spells.spells (.inflight r)
  rw [hl] at hspells
  refine ⟨l₁, l₂, hl, hprev, ⟨l₁ ++ [x], l₂, ?_, ?_, ?_⟩, fun u hu => ⟨?_, ?_⟩⟩
  · rw [hl, append_assoc]
    rfl
  · rw [getLast?_concat]
  · simpa using (chain_append.1 hspells.chain).2.1
  · rw [hl]
    exact ((sublist_cons_self x l₂).append_left l₁).subset hu
  · rintro rfl
    exact (nodup_cons.1 (nodup_middle.1 hspells.nodup)).1 hu

/-- An iteration for a transfer that has the event `e`. -/
def Runner.pollP2p (dag : List DagNode) (s : Runner) (ans : Answers) (prev : Option Nat) (x e : Nat) : Runner × List Note :=
  match runnerClassifyEventQuery ans.eventQuery with
  | (.success, true) =>
    ({ s with p2pEventMap := s.p2pEventMap.markAvailable e, eventIdx := update s.eventIdx x none } : Runner).complete dag
      .p2pInflight prev x (.p2pInflight prev)
  | (.success, false) => ({ s with pc := .p2pInflight (some x) (s.queues.next x) }, [])
  | (result, _) => (s.fail result, [])

theorem Scheduled.stepP2pInflight (hchildren : ∀ u, ∀ v ∈ childrenOf dag u, v < dag.length)
    (hpc : s.pc = .p2pInflight prev (some x)) :
    Stays dag (s.stepP2pInflight dag ans prev x).1 (log ++ (s.stepP2pInflight dag ans prev x).2) := by
  have hstands := h.stands
  rw [hpc] at hstands
  obtain ⟨l₁, l₂, hl, rfl, hgo, hrest⟩ := h.at_node (r := false) hstands
  have hxin : x ∈ ls .p2pInflight := by
    rw [show ls .p2pInflight = _ from hl]
    simp
  obtain ⟨data, hdata, hred⟩ := Option.map_eq_some_iff.1 (h.counted.kind .p2pInflight x hxin)
  obtain ⟨e, he, hbusy⟩ := h.events.has x hxin
  have hstep : s.stepP2pInflight dag ans l₁.getLast? x = s.pollP2p dag ans l₁.getLast? x e := by
    unfold Runner.stepP2pInflight
    rw [hdata, he]
    cases data with
    | p2p ops => rfl
    | cpy data => rfl
    | red data => cases hred
  -- the event of `x` becomes free, those of the others stay in use
  have hevents : Holds (update s.eventIdx x none) (l₁ ++ l₂)
      fun e' => (s.p2pEventMap.markAvailable e).isAvailable e' = false := by
    refine h.events.leave (fun u hu => (hrest u hu).1) (fun u hu => update_of_ne (hrest u hu).2 _ _) ?_
    intro u hu e' he' hbusy'
    have hdiff : e' ≠ e := by
      rintro rfl
      exact (hrest u hu).2 (h.events.inj u (hrest u hu).1 x hxin (he'.trans he.symm))
    rw [EventBitmap.isAvailable_markAvailable, hbusy']
    simpa using hdiff
  rw [hstep]
  unfold Runner.pollP2p runnerClassifyEventQuery
  split_ifs with hdone hprogress
  · obtain ⟨t', ls', ht, hs⟩ := h.complete (r := false) (t := { s with
      p2pEventMap := s.p2pEventMap.markAvailable e
      eventIdx := update s.eventIdx x none }) (hchildren x) hl rfl hevents h.triggers h.nextIdx rfl
    have hcomplete : Runner.complete dag _ .p2pInflight l₁.getLast? x (.p2pInflight l₁.getLast?) = _ := ht
    rw [hcomplete]
    exact .inl ⟨ls', hs⟩
  · exact (h.goto (p := .p2pInflight _ _) hgo).idle
  · have hfailed := h.failing (t := s) rfl rfl rfl ans.eventQuery
    cases hq : ans.eventQuery with
    | success => exact absurd hq hdone
    | _ =>
      rw [hq] at hfailed
      exact hfailed

theorem Scheduled.stepRedInflight (hchildren : ∀ u, ∀ v ∈ childrenOf dag u, v < dag.length)
    (hpc : s.pc = .redInflight prev (some x)) :
    Stays dag (s.stepRedInflight dag ans prev x).1 (log ++ (s.stepRedInflight dag ans prev x).2) := by
  have hstands := h.stands
  rw [hpc] at hstands
  obtain ⟨l₁, l₂, hl, rfl, hgo, hrest⟩ := h.at_node (r := true) hstands
  have hxin : x ∈ ls .redInflight := by
    rw [show ls .redInflight = _ from hl]
    simp
  obtain ⟨t, ht, hbusy⟩ := h.triggers.has x hxin
  have htriggers : Holds s.triggerIdx (l₁ ++ l₂) fun t' => update s.fifo.triggers t .available t' ≠ .available := by
    refine h.triggers.leave (fun u hu => (hrest u hu).1) (fun _ _ => rfl) fun u hu t' ht' hbusy' => ?_
    have hdiff : t' ≠ t := by
      rintro rfl
      exact (hrest u hu).2 (h.triggers.inj u (hrest u hu).1 x hxin (ht'.trans ht.symm))
    rwa [update_of_ne hdiff]
  unfold Runner.stepRedInflight
  rw [ht, Option.getD_some]
  dsimp only
  split_ifs with hdone
  · obtain ⟨t', ls', htt, hs⟩ := h.complete (r := true) (t := { s with
      fifo := { s.fifo with triggers := update s.fifo.triggers t .available } }) (hchildren x) hl rfl h.events
      htriggers h.nextIdx rfl
    have hcomplete : Runner.complete dag _ .redInflight l₁.getLast? x (.redInflight l₁.getLast?) = _ := htt
    rw [hcomplete]
    exact .inl ⟨ls', hs⟩
  · exact (h.goto (p := .redInflight _ _) hgo).idle

/-- **One iteration of the thread keeps the runner in agreement with the log, or ends it with an error.** -/
theorem Scheduled.step (hchildren : ∀ u, ∀ v ∈ childrenOf dag u, v < dag.length) (hset : ans.Settled)
    (hstep : s.step dag ans = some out) : Stays dag out.1 (log ++ out.2) := by
  cases hpc : s.pc with
  | head => exact h.stepHead hpc hstep
  | p2pReady =>
    unfold Runner.step at hstep
    rw [hpc] at hstep
    cases hstep
    exact h.stepP2pReady hset hpc
  | redReady =>
    unfold Runner.step at hstep
    rw [hpc] at hstep
    cases hstep
    exact h.stepRedReady hpc
  | p2pInflight prev curr =>
    unfold Runner.step at hstep
    rw [hpc] at hstep
    cases curr with
    | none =>
      cases hstep
      exact (h.goto (p := .redInflight none _) ⟨[], ls .redInflight, rfl, rfl, h.head _⟩).idle
    | some x =>
      cases hstep
      exact h.stepP2pInflight hchildren hpc
  | redInflight prev curr =>
    unfold Runner.step at hstep
    rw [hpc] at hstep
    cases curr with
    | none =>
      cases hstep
      exact (h.goto (p := .head) trivial).idle
    | some x =>
      cases hstep
      exact h.stepRedInflight hchildren hpc
  | finished | failed result =>
    unfold Runner.step at hstep
    rw [hpc] at hstep
    cases hstep

end

/-! ## The end of the loop -/

/-- How many iterations are left once all nodes are complete. -/
def Pc.left : Pc → Nat
  | .p2pReady => 5
  | .redReady => 4
  | .p2pInflight _ _ => 3
  | .redInflight _ _ => 2
  | .head => 1
  | .finished | .failed _ => 0

theorem cursor_nil {curr : Option Nat} (h : Cursor [] prev curr) : curr = none := by
  obtain ⟨l₁, l₂, hl, -, rfl⟩ := h
  rw [(append_eq_nil_iff.1 hl.symm).2]
  rfl

section

variable (h : Scheduled dag s log ls) (hall : ∀ v < dag.length, v ∈ completedNodes log)
include h hall

theorem Scheduled.leaving (hpc : s.pc ≠ .finished) (ans : Answers) :
    ∃ t, s.step dag ans = some (t, []) ∧ t.pc.left < s.pc.left ∧ Scheduled dag t log ls := by
  have hempty := (h.all_empty hall).1
  have hhead : ∀ i, s.queues.head i = none := fun i => by rw [h.head i, hempty i, head?_nil]
  have hstands := h.stands
  unfold Runner.step
  cases hp : s.pc with
  | head =>
    rw [if_pos (h.exit_iff.2 hall)]
    exact ⟨_, rfl, zero_lt_one, { h with stands := hall }⟩
  | p2pReady =>
    unfold Runner.stepP2pReady
    rw [if_pos ((h.isEmpty .p2pReady).2 (hempty _))]
    exact ⟨_, rfl, Nat.lt_succ_self 4, h.goto trivial⟩
  | redReady =>
    unfold Runner.stepRedReady
    rw [hhead .redReady]
    exact ⟨_, rfl, Nat.lt_succ_self 3, h.goto ⟨[], ls .p2pInflight, rfl, rfl, h.head _⟩⟩
  | p2pInflight prev curr =>
    rw [hp] at hstands
    obtain rfl : curr = none := cursor_nil (by rw [← hempty .p2pInflight]; exact hstands)
    exact ⟨_, rfl, Nat.lt_succ_self 2, h.goto ⟨[], ls .redInflight, rfl, rfl, h.head _⟩⟩
  | redInflight prev curr =>
    rw [hp] at hstands
    obtain rfl : curr = none := cursor_nil (by rw [← hempty .redInflight]; exact hstands)
    exact ⟨_, rfl, Nat.lt_succ_self 1, h.goto trivial⟩
  | finished => exact absurd hp hpc
  | failed result =>
    rw [hp] at hstands
    exact hstands.elim

theorem Scheduled.leaves (as : List Answers) (hlen : s.pc.left ≤ as.length) :
    ∃ pre, pre <+: as ∧ ∃ t, exec (Execution.step dag) ⟨s, log⟩ pre = some ⟨t, log⟩ ∧ t.pc = .finished := by
  induction as generalizing s with
  | nil =>
    refine ⟨[], prefix_rfl, s, rfl, ?_⟩
    by_contra hpc
    obtain ⟨t, -, hlt, -⟩ := h.leaving hall hpc ⟨.success, .success, .success, .success, .success, .success, 0, true⟩
    have hzero : s.pc.left = 0 := Nat.le_zero.1 hlen
    omega
  | cons a as ih =>
    by_cases hpc : s.pc = .finished
    · exact ⟨[], nil_prefix, s, rfl, hpc⟩
    obtain ⟨t, hstep, hlt, ht⟩ := h.leaving hall hpc a
    obtain ⟨pre, hpre, t', hexec, hfin⟩ := ih ht (by rw [length_cons] at hlen; omega)
    have hone : Execution.step dag ⟨s, log⟩ a = some ⟨t, log⟩ := by
      show (s.step dag a).map _ = _
      rw [hstep, Option.map_some, append_nil]
    refine ⟨a :: pre, cons_prefix_cons.2 ⟨rfl, hpre⟩, t', ?_, hfin⟩
    rw [exec, hone]
    exact hexec

end

end Scheduled

/-! ## Whole runs -/

/-- The ready nodes of a builder stand in the queue of their kind. -/
structure RunnerState.QueuedByKind (st : RunnerState) : Prop where
  p2p : ∀ v ∈ st.p2pReadyQueue, (nodeData st.dagNodes v).map NodeData.isRed = some false
  red : ∀ v ∈ st.redReadyQueue, (nodeData st.dagNodes v).map NodeData.isRed = some true

section Start
variable {st : RunnerState}

def RunnerState.startLists (st : RunnerState) : QueueId → List Nat
  | .p2pReady => st.p2pReadyQueue
  | .redReady => st.redReadyQueue
  | _ => []

theorem countP_eq_card {α : Type} (l : List α) (p : α → Bool) :
    l.countP p = ((Finset.range l.length).filter fun i => l[i]?.any p = true).card := by
  induction l using reverseRecOn with
  | nil => rfl
  | append_singleton l a ih =>
    have hold : ((Finset.range l.length).filter fun i => (l ++ [a])[i]?.any p = true) =
        (Finset.range l.length).filter fun i => l[i]?.any p = true :=
      Finset.filter_congr fun i hi => by rw [getElem?_append_left (Finset.mem_range.1 hi)]
    have hnew : (l ++ [a])[l.length]?.any p = p a := by simp
    rw [countP_append, ih, length_append, length_singleton, Finset.range_add_one, Finset.filter_insert, hnew,
      hold]
    cases hp : p a with
    | true => simp [hp]
    | false => simp [hp]

theorem foldl_enqueue {s : Queues QueueId Nat} {ls : QueueId → List Nat} {i : QueueId} (h : SpellsAll s ls) {xs : List Nat}
    (hnodup : xs.Nodup) (hout : ∀ x ∈ xs, ∀ j, x ∉ ls j) :
    SpellsAll (xs.foldl (·.enqueue i ·) s) (update ls i (ls i ++ xs)) := by
  induction xs generalizing s ls with
  | nil =>
    rw [append_nil, update_eq_self]
    exact h
  | cons x xs ih =>
    obtain ⟨hx, hnodup⟩ := nodup_cons.1 hnodup
    have hone := h.enqueue (i := i) (hout x mem_cons_self)
    have hall := ih hone hnodup fun y hy j hj => by
      rw [update_apply] at hj
      split_ifs at hj with he
      · rcases mem_append.1 hj with hj | hj
        · exact hout y (mem_cons_of_mem x hy) i hj
        · rw [mem_singleton.1 hj] at hy
          exact hx hy
      · exact hout y (mem_cons_of_mem x hy) j hj
    rw [update_self, update_idem, append_assoc] at hall
    exact hall

theorem RunnerState.queues_spell (h : st.WellFormed) : SpellsAll st.queues st.startLists := by
  obtain ⟨hp, hr, hapart⟩ := nodup_append.1 h.ready_nodup
  have hp2p := foldl_enqueue (i := .p2pReady) (spells_construct (ι := QueueId) (α := Nat)) hp fun _ _ _ => not_mem_nil
  have hred := foldl_enqueue (i := .redReady) hp2p hr fun x hx j hj => by
    rw [update_apply] at hj
    split_ifs at hj
    · exact hapart x (by simpa using hj) x hx rfl
    · exact not_mem_nil hj
  have hlists : update (update (fun _ => []) QueueId.p2pReady ([] ++ st.p2pReadyQueue)) .redReady
      (update (fun _ => []) QueueId.p2pReady ([] ++ st.p2pReadyQueue) .redReady ++ st.redReadyQueue) =
      st.startLists := by
    funext i
    cases i <;> rfl
  rw [hlists] at hred
  exact hred

theorem RunnerState.numParents_start (h : st.WellFormed) (v : Nat) :
    (st.dagNodes[v]?.map (·.numParents)).getD 0 = Dag.inEdges st.children v := by
  cases hv : st.dagNodes[v]? with
  | some node => exact h.numParents_eq v node hv
  | none =>
    refine (sum_eq_zero fun n hn => ?_).symm
    obtain ⟨cs, hcs, rfl⟩ := mem_map.1 hn
    obtain ⟨node, hnode, rfl⟩ := mem_map.1 hcs
    refine count_eq_zero.2 fun hin => ?_
    have hlt := h.child_lt node hnode v hin
    rw [← h.length_eq] at hlt
    exact absurd (getElem?_eq_none_iff.1 hv) (not_le.2 hlt)

theorem RunnerState.mem_startLists {v : Nat} : (∃ i, v ∈ st.startLists i) ↔ v ∈ st.readyNodes := by
  unfold RunnerState.readyNodes
  rw [mem_append]
  constructor
  · rintro ⟨i, hi⟩
    cases i with
    | p2pReady => exact .inl hi
    | redReady => exact .inr hi
    | p2pInflight => cases hi
    | redInflight => cases hi
  · rintro (hv | hv)
    · exact ⟨.p2pReady, hv⟩
    · exact ⟨.redReady, hv⟩

theorem RunnerState.scheduled_start (h : st.WellFormed) (hkind : st.QueuedByKind) {eventPoolSize : Nat}
    (hpool : 1 ≤ eventPoolSize) (fifoCapacity : Nat) :
    Scheduled st.dagNodes (st.start eventPoolSize fifoCapacity) [] st.startLists := by
  have hparents := st.numParents_start h
  have hzero : ∀ v < st.dagNodes.length, (Dag.inEdges st.children v = 0 ↔ v ∈ st.readyNodes) := by
    intro v hv
    rw [h.mem_ready, ← hparents, getElem?_eq_getElem hv]
    simp
  refine ⟨⟨st.queues_spell h, fun i v hv => ?_, fun v => ?_, fun v hv => ?_, ?_⟩, .refl _, nodup_nil, fun v _ => ?_,
    justified_nil _, ⟨fun _ hv => absurd hv not_mem_nil, fun _ hv => absurd hv not_mem_nil⟩,
    ⟨fun _ hv => absurd hv not_mem_nil, fun _ hv => absurd hv not_mem_nil⟩, hpool, trivial⟩
  · cases i with
    | p2pReady => exact hkind.p2p v hv
    | redReady => exact hkind.red v hv
    | p2pInflight => cases hv
    | redInflight => cases hv
  · show (((st.dagNodes[v]?.map (·.numParents)).getD 0 : Nat) : Int) = _
    rw [hparents]
    show _ = ((owed st.children [] v + 0 : Nat) : Int)
    rw [owed_nil, add_zero]
  · show (((st.dagNodes[v]?.map (·.numParents)).getD 0 : Nat) : Int) = 0 ↔ _
    rw [Int.natCast_eq_zero, hparents, hzero v hv, RunnerState.mem_startLists]
    exact (or_iff_left not_mem_nil).symm
  · show st.numPendingNodes = _
    rw [h.pending_eq, countP_eq_card]
    congr 2
    refine Finset.filter_congr fun v hv => ?_
    show _ ↔ (((st.dagNodes[v]?.map (·.numParents)).getD 0 : Nat) : Int) ≠ 0
    rw [getElem?_eq_getElem (Finset.mem_range.1 hv)]
    simp
  · exact not_mem_nil

/-- **The scheduler runs the DAG.** -/
theorem runUniRunner_schedules (h : st.WellFormed) (hkind : st.QueuedByKind) {eventPoolSize fifoCapacity : Nat}
    (hpool : 1 ≤ eventPoolSize) {e : Execution}
    (hr : Reach (Execution.step st.dagNodes) (fun _ ans => ans.Settled) ⟨st.start eventPoolSize fifoCapacity, []⟩ e) :
    Safe st.dagNodes e.runner e.log ∧
    (e.runner.pc = .finished → ∀ v < st.numDagNodes, .launched v ∈ e.log ∧ .completed v ∈ e.log) ∧
    ((∀ result, e.runner.pc ≠ .failed result) →
      ((∀ v < st.numDagNodes, .completed v ∈ e.log) → ∀ as : List Answers, 5 ≤ as.length →
        ∃ pre, pre <+: as ∧ ∃ t, exec (Execution.step st.dagNodes) e pre = some ⟨t, e.log⟩ ∧ t.pc = .finished) ∧
      ((∃ v < st.numDagNodes, .completed v ∉ e.log) → ∃ i, e.runner.queues.isEmpty i = false)) := by
  have hchildren : ∀ u, ∀ v ∈ childrenOf st.dagNodes u, v < st.dagNodes.length := by
    intro u v hv
    unfold childrenOf at hv
    cases hu : st.dagNodes[u]? with
    | none =>
      rw [hu] at hv
      cases hv
    | some node =>
      rw [hu] at hv
      rw [h.length_eq]
      exact h.child_lt node (mem_of_getElem? hu) v hv
  have hinv : Stays st.dagNodes e.runner e.log := by
    refine hr.invariant (I := fun e => Stays st.dagNodes e.runner e.log)
      (.inl ⟨_, st.scheduled_start h hkind hpool fifoCapacity⟩) fun e e' ans hi hset hstep => ?_
    obtain ⟨out, hout, rfl⟩ := Option.map_eq_some_iff.1 hstep
    rcases hi with ⟨ls, hs⟩ | ⟨-, result, hfail⟩
    · exact hs.step hchildren hset hout
    · unfold Runner.step at hout
      rw [hfail] at hout
      cases hout
  rw [← h.length_eq]
  rcases hinv with ⟨ls, hs⟩ | ⟨hsafe, result, hfail⟩
  · refine ⟨hs.safe, fun hfin v hv => ?_, fun _ => ⟨fun hall as hlen => ?_, ?_⟩⟩
    · have hstands := hs.stands
      rw [hfin] at hstands
      have hlaunched := hs.launched.mem_iff.2 (mem_append_right _ (hstands v hv))
      exact ⟨mem_launchedNodes.1 hlaunched, mem_completedNodes.1 (hstands v hv)⟩
    · refine hs.leaves (fun v hv => mem_completedNodes.2 (hall v hv)) as (le_trans ?_ hlen)
      unfold Pc.left
      split <;> omega
    · rintro ⟨v, hv, hD⟩
      obtain ⟨i, hi⟩ := hs.busy h.acyclic hv fun hin => hD (mem_completedNodes.1 hin)
      refine ⟨i, Bool.eq_false_iff.2 fun hempty => hi ((hs.isEmpty i).1 hempty)⟩
  · refine ⟨hsafe, fun hfin => ?_, fun hno => absurd hfail (hno result)⟩
    rw [hfail] at hfin
    cases hfin

def copyThenReduce : RunnerState where
  dagNodes := [⟨.cpy ⟨0, 8, 4⟩, 0, [1]⟩, ⟨.red ⟨0, 8, 0, 4⟩, 1, []⟩]
  numDagNodes := 2
  p2pReadyQueue := [0]
  redReadyQueue := []
  numPendingNodes := 1

theorem copyThenReduce_wellFormed : copyThenReduce.WellFormed where
  length_eq := rfl
  child_lt := by decide
  numParents_eq := by
    intro v node hv
    match v, hv with
    | 0, hv => cases hv; rfl
    | 1, hv => cases hv; rfl
    | v + 2, hv => cases hv
  acyclic := by
    refine acyclic_of_key id fun u v he => ?_
    obtain ⟨cs, hu, hv⟩ := he
    match u, hu with
    | 0, hu =>
      cases hu
      rw [mem_singleton.1 hv]
      exact zero_lt_one
    | 1, hu =>
      cases hu
      cases hv
    | u + 2, hu => cases hu
  ready_nodup := by decide
  mem_ready := by
    intro v
    match v with
    | 0 => exact iff_of_true (by decide) ⟨_, rfl, rfl⟩
    | 1 => exact iff_of_false (by decide) (by rintro ⟨node, hnode, hz⟩; cases hnode; cases hz)
    | v + 2 => exact iff_of_false (by simp [copyThenReduce, RunnerState.readyNodes]) (by rintro ⟨node, hnode, -⟩; cases hnode)
  pending_eq := by decide

theorem runUniRunner_schedules_copyThenReduce :
    let ok : Answers := ⟨.success, .success, .success, .success, .success, .success, 0, true⟩
    let e := exec (Execution.step copyThenReduce.dagNodes) ⟨copyThenReduce.start 1 1, []⟩ (replicate 15 ok)
    (e.map (·.runner.pc)) = some .finished ∧ ∀ e' ∈ e, Safe copyThenReduce.dagNodes e'.runner e'.log := by
  intro ok e
  refine ⟨by decide +kernel, fun e' he' => ?_⟩
  exact (runUniRunner_schedules copyThenReduce_wellFormed ⟨by decide, by decide⟩ le_rfl
    (Reach.of_exec (fun _ a ha => by rw [eq_of_mem_replicate ha]; exact ⟨by decide, by decide⟩) he')).1

end Start

end FlagCX.UniRunner
