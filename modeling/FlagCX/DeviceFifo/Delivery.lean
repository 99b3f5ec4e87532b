import FlagCX.DeviceFifo.Cells

/-!
# Delivery

* `Delivers`       : what is taken, what stands in the slots, what a call that succeeded has done.
* `toDeliver`      : how many steps of the worker bring the trigger of a published sequence.
* `fifo_delivers`  : runs that reserve apart; `shared_slot_is_overwritten` : one that does not.
-/

namespace FlagCX.DeviceFifo
open Lib List Function

/-! ## What a run shows -/

/-- What every reached state shows. -/
structure Delivers (c : Config) (s : State) : Prop where
  /-- the `n`-th trigger taken has the words of the `n`-th reservation, but for the valid bit -/
  inOrder : s.delivered.length ≤ s.reserved.length ∧
    s.delivered = (s.reserved.take s.delivered.length).map fun t => t.publish.taken
  /-- a reservation is that of the trigger its producer was called with -/
  reserved : ∀ p, (s.producers p).pc.holds = true → s.reserved[(s.producers p).seq]? = some (s.producers p).trigger
  /-- no producer changes the slot of a published trigger that is not consumed -/
  untouched : ∀ p s', s.producerStep c p = some s' → ∀ n ∈ s.published, s.consumedCount ≤ n →
    s'.slots (c.cell n) = s.slots (c.cell n)
  /-- a call that succeeded has published its trigger -/
  succeeded : ∀ p, (s.producers p).pc = .returned .success → (s.producers p).seq ∈ s.published ∧
    s.reserved[(s.producers p).seq]? = some (s.producers p).trigger
  /-- the worker's next access is a part of `dequeue`, or the update of `consumed` -/
  alternates : (s.hostStep c .dequeue).isSome = true ∨ (s.hostStep c .consume).isSome = true

section Delivers
variable {c : Config} {s s' : State} {n : Nat}

theorem Cells.untouched (h : Cells c s) {p : Nat} (hs : s.producerStep c p = some s') (hn : n ∈ s.published)
    (hle : s.consumedCount ≤ n) : s'.slots (c.cell n) = s.slots (c.cell n) := by
  have hother : (s.producers p).pc.cleared = true → ∀ u,
      update s.slots (c.slot (s.producers p).mySlot) u (c.cell n) = s.slots (c.cell n) := by
    intro hx u
    rw [((h.held p).mine (ProducerPc.holds_of_cleared hx)).2.1]
    exact update_of_ne (h.cell_ne_published hx hn hle) ..
  rw [State.producerStep] at hs
  cases hpc : (s.producers p).pc <;> rw [hpc] at hs <;> cases hs
  case writingFst => exact hother (by rw [hpc]; rfl) _
  case writingSnd => exact hother (by rw [hpc]; rfl) _
  case writingTrd => exact hother (by rw [hpc]; rfl) _
  all_goals rfl

theorem Cells.alternates (h : Cells c s) : (s.hostStep c .dequeue).isSome = true ∨ (s.hostStep c .consume).isSome = true := by
  have hw := h.worker
  rw [State.Worker] at hw
  rw [State.hostStep, State.hostStep, State.dequeueStep]
  cases hhost : s.host <;> rw [hhost] at hw <;> first | exact hw.elim | exact .inl rfl | exact .inr rfl

theorem Cells.delivers (h : Cells c s) : Delivers c s where
  inOrder := ⟨h.taken_le, h.delivered⟩
  reserved p hp := ((h.held p).mine hp).1
  untouched _ _ hs _ := h.untouched hs
  succeeded p hp := (h.held p).done (.inr hp)
  alternates := h.alternates

end Delivers

/-! ## Delivery of what is published -/

def Action.ofWorker : Action → Bool
  | .host .dequeue | .host .consume => true
  | _ => false

/-- How many accesses the worker is from having taken one more trigger. -/
def Host.toTake : Host → Nat
  | .idle => 5
  | .looked => 4
  | .valid _ => 3
  | .readFst .. => 2
  | .readSnd .. => 1
  | _ => 6

theorem Host.toTake_pos (host : Host) : 0 < host.toTake := by cases host <;> exact Nat.zero_lt_succ _

theorem Host.toTake_le (host : Host) : host.toTake ≤ 6 := by cases host <;> dsimp only [toTake] <;> omega

/-- How many accesses the worker is from having taken the trigger of sequence `n`. -/
def State.toDeliver (n : Nat) (s : State) : Nat := 6 * (n - s.delivered.length) + s.host.toTake

variable {a : Action}

section Progress
variable {c : Config} {s s' : State} {n : Nat}

theorem Trigger.publish_valid (t : Trigger) : t.publish.trd &&& validField.place 1#64 ≠ 0 := by
  intro h
  have hbit := congrArg (BitVec.getLsbD · 63) h
  rw [Trigger.publish] at hbit
  simp only [BitVec.getLsbD_and, BitVec.getLsbD_or] at hbit
  revert hbit
  cases t.trd.getLsbD 63 <;> decide

theorem Cells.dequeue_nearer (h : Cells c s) (hpub : ∀ m ≤ n, m ∈ s.published) (hd : s.delivered.length ≤ n)
    (hs : s.dequeueStep c = some s') : n < s'.delivered.length ∨ s'.toDeliver n + 1 ≤ s.toDeliver n := by
  have hw := h.worker
  rw [State.Worker] at hw
  rw [State.dequeueStep, h.slot_consumed] at hs
  rw [State.toDeliver, State.toDeliver]
  cases hhost : s.host <;> rw [hhost] at hs hw <;> cases hs
  case idle =>
    have hne : s.produced ≠ s.consumed := by
      rw [h.produced, h.consumed]
      intro he
      have hlt := (h.bounds n (hpub n le_rfl)).1
      have hround := add_le_of_slot_eq (a := s.consumedCount) (b := s.reserved.length) (by omega) he.symm
      have := h.lt
      omega
    rw [if_neg hne]
    exact .inr (le_rfl)
  case looked =>
    have hmem : s.consumedCount ∈ s.published := hpub _ (hw ▸ hd)
    have hget := getElem?_eq_getElem (h.bounds _ hmem).1
    rw [h.stored _ hmem hw.le _ hget, if_neg (Trigger.publish_valid _)]
    exact .inr (le_rfl)
  case readSnd fst snd trd =>
    dsimp only [Host.toTake]
    rw [length_append, length_singleton]
    omega
  all_goals exact .inr (le_rfl)

theorem State.step_other (ha : a.ofWorker = false) (hok : Apart c s a) (hworker : s.Worker c)
    (hs : s.step c a = some s') : s'.host = s.host ∧ s'.delivered = s.delivered := by
  rw [State.Worker] at hworker
  cases a with
  | enqueue p t | flush f =>
    rw [State.step] at hs
    split_ifs at hs
    cases hs
    exact ⟨rfl, rfl⟩
  | producer p =>
    rw [State.step, State.producerStep] at hs
    cases hpc : (s.producers p).pc <;> rw [hpc] at hs <;> cases hs <;> exact ⟨rfl, rfl⟩
  | flusher f =>
    rw [State.step, State.flusherStep] at hs
    split at hs <;> cases hs <;> exact ⟨rfl, rfl⟩
  | host a =>
    cases a with
    | dequeue => cases ha
    | consume => cases ha
    | advance k | storeTerminal r =>
      rw [State.step, State.hostStep] at hs
      split_ifs at hs
      cases hs
      exact ⟨rfl, rfl⟩
    | close => exact absurd rfl hok.gateOpen
    | await =>
      rw [State.step, State.hostStep] at hs
      split at hs
      · rename_i hhost
        rw [hhost] at hworker
        exact hworker.elim
      · cases hs
    | finalize =>
      rw [State.step, State.hostStep, State.finalizeStep] at hs
      cases hhost : s.host <;> rw [hhost] at hs hworker <;> first | exact hworker.elim | cases hs

/-- The published sequences and the triggers taken only grow. -/
structure Grows (s s' : State) : Prop where
  published : ∀ m ∈ s.published, m ∈ s'.published
  delivered : s.delivered.length ≤ s'.delivered.length

theorem State.producerStep_grows {p : Nat} (hs : s.producerStep c p = some s') : Grows s s' := by
  rw [producerStep] at hs
  cases hpc : (s.producers p).pc <;> rw [hpc] at hs <;> cases hs
  case writingTrd => exact ⟨fun _ hm => mem_cons_of_mem _ hm, le_rfl⟩
  all_goals exact ⟨fun _ hm => hm, le_rfl⟩

theorem State.dequeueStep_grows (hs : s.dequeueStep c = some s') : Grows s s' := by
  rw [dequeueStep] at hs
  cases hhost : s.host <;> rw [hhost] at hs <;> cases hs
  case idle => split_ifs <;> exact ⟨fun _ hm => hm, le_rfl⟩
  case readSnd =>
    refine ⟨fun _ hm => hm, ?_⟩
    rw [length_append]
    omega
  all_goals exact ⟨fun _ hm => hm, le_rfl⟩

theorem State.hostStep_grows {a : HostAction} (hs : s.hostStep c a = some s') : Grows s s' := by
  cases a with
  | dequeue => exact s.dequeueStep_grows hs
  | finalize =>
    rw [hostStep, finalizeStep] at hs
    cases hhost : s.host <;> rw [hhost] at hs <;> cases hs <;> exact ⟨fun _ hm => hm, le_rfl⟩
  | consume | await =>
    rw [hostStep] at hs
    split at hs <;> cases hs
    exact ⟨fun _ hm => hm, le_rfl⟩
  | advance | storeTerminal | close =>
    rw [hostStep] at hs
    split_ifs at hs
    cases hs
    exact ⟨fun _ hm => hm, le_rfl⟩

theorem State.step_grows (hs : s.step c a = some s') : Grows s s' := by
  cases a with
  | producer p => exact s.producerStep_grows hs
  | host a => exact s.hostStep_grows hs
  | enqueue | flush =>
    rw [step] at hs
    split_ifs at hs
    cases hs
    exact ⟨fun _ hm => hm, le_rfl⟩
  | flusher f =>
    rw [step, flusherStep] at hs
    split at hs <;> cases hs <;> exact ⟨fun _ hm => hm, le_rfl⟩

theorem Cells.nearer (h : Cells c s) (hpub : ∀ m ≤ n, m ∈ s.published) (hok : Apart c s a) (hs : s.step c a = some s') :
    n < s'.delivered.length ∨ s'.toDeliver n + a.ofWorker.toNat ≤ s.toDeliver n ∧ s.delivered.length ≤ n := by
  by_cases hd : s.delivered.length ≤ n
  · cases hworker : a.ofWorker with
    | false =>
      obtain ⟨hhost, hdelivered⟩ := State.step_other hworker hok h.worker hs
      rw [State.toDeliver, State.toDeliver, hhost, hdelivered]
      exact .inr ⟨le_rfl, hd⟩
    | true =>
      cases a with
      | host a =>
        cases a with
        | dequeue => exact (h.dequeue_nearer hpub hd hs).imp_right fun hle => ⟨hle, hd⟩
        | consume =>
          rw [State.step, State.hostStep] at hs
          split at hs
          · rename_i hhost
            cases hs
            refine .inr ⟨?_, hd⟩
            rw [State.toDeliver, State.toDeliver, hhost]
            exact le_rfl
          · cases hs
        | _ => cases hworker
      | _ => cases hworker
  · have := (s.step_grows hs).delivered
    omega

theorem Cells.delivered_of_counted (h : Cells c s) (hpub : ∀ m ≤ n, m ∈ s.published) {k : Nat}
    (hrun : Reach (counted (State.step c) Action.ofWorker) (fun x a => Apart c x.1 a) (s, 0) (s', k))
    (hk : 6 * (n + 1) ≤ k) : n < s'.delivered.length := by
  have hinv : Cells c s' ∧ (∀ m ≤ n, m ∈ s'.published) ∧ (n < s'.delivered.length ∨ s'.toDeliver n + k ≤ 6 * (n + 1)) := by
    refine hrun.counted_invariant (I := fun t j => Cells c t ∧ (∀ m ≤ n, m ∈ t.published) ∧
      (n < t.delivered.length ∨ t.toDeliver n + j ≤ 6 * (n + 1))) ⟨h, hpub, ?_⟩ ?_
    · have hrank := s.host.toTake_le
      rw [State.toDeliver]
      omega
    · rintro t t' a j ⟨ht, hmem, hnear⟩ hok hs
      refine ⟨ht.step hok hs, fun m hm => (t.step_grows hs).published m (hmem m hm), ?_⟩
      rcases ht.nearer hmem hok hs with hd | ⟨hle, hd⟩
      · exact .inl hd
      · rcases hnear with hd' | hnear
        · omega
        · exact .inr (by omega)
  have hpos := s'.host.toTake_pos
  rcases hinv.2.2 with hd | hnear
  · exact hd
  · rw [State.toDeliver] at hnear
    omega

end Progress

/-- **Delivery.** In every run in which sequences reserve apart, the triggers are taken once each, unchanged and in the order
of their reservations. -/
theorem fifo_delivers (c : Config) {s : State} (h : Reach (State.step c) (Apart c) State.init s) :
    Delivers c s ∧ ∀ n, (∀ m ≤ n, m ∈ s.published) → ∀ s' k,
      Reach (counted (State.step c) Action.ofWorker) (fun x a => Apart c x.1 a) (s, 0) (s', k) → 6 * (n + 1) ≤ k →
        n < s'.delivered.length :=
  ⟨(Cells.of_reach h).delivers, fun _ hpub _ _ => (Cells.of_reach h).delivered_of_counted hpub⟩

/-! ## Two runs -/

def threeSlots : Config := ⟨32, 3, 2⟩

def reservesApart (c : Config) (s : State) (a : Action) : Bool :=
  decide (a ≠ .host .close) && match a with
    | .producer p => (s.producers p).pc != .entered || decide (s.reserved.length + 1 < s.consumedCount + c.values) &&
          (range s.reserved.length).all fun m => decide (s.consumedCount ≤ m → s.reserved.length < m + c.window →
            c.cell m ≠ c.cell s.reserved.length)
    | _ => true

theorem apart_of_check {c : Config} {s : State} (h : reservesApart c s a = true) : Apart c s a := by
  obtain ⟨hopen, hcheck⟩ := Bool.and_eq_true_iff.1 h
  have hboth : ∀ p, a = .producer p → (s.producers p).pc = .entered → s.reserved.length + 1 < s.consumedCount + c.values ∧
      ∀ m, s.consumedCount ≤ m → m < s.reserved.length → s.reserved.length < m + c.window →
        c.cell m ≠ c.cell s.reserved.length := by
    rintro p rfl hpc
    simp only [hpc, bne_self_eq_false, Bool.false_or, Bool.and_eq_true, decide_eq_true_eq, all_eq_true,
      mem_range] at hcheck
    exact ⟨hcheck.1, fun m hle hlt => hcheck.2 m hlt hle⟩
  exact ⟨of_decide_eq_true hopen, fun p ha hpc => (hboth p ha hpc).1, fun p ha hpc => (hboth p ha hpc).2⟩

def twoThreads : List Action :=
  .enqueue 0 ⟨1, 2, 3⟩ :: .enqueue 1 ⟨4, 5, 6⟩ :: replicate 4 (.producer 0) ++ replicate 8 (.producer 1) ++
    replicate 4 (.producer 0)

theorem fifo_delivers_twoThreads : ∃ s, exec (State.step threeSlots) State.init twoThreads = some s ∧
    s.published = [0, 1] ∧ Delivers threeSlots s ∧
    ∀ s' k, Reach (counted (State.step threeSlots) Action.ofWorker) (fun x a => Apart threeSlots x.1 a) (s, 0) (s', k) →
      12 ≤ k → 1 < s'.delivered.length := by
  have hrun : Reach (State.step threeSlots) (Apart threeSlots) State.init _ :=
    Reach.of_checked (fun _ _ => apart_of_check) (show exec _ _ twoThreads = some _ from rfl)
  obtain ⟨hdelivers, hdelivered⟩ := fifo_delivers threeSlots hrun
  exact ⟨_, rfl, rfl, hdelivers, fun s' k => hdelivered 1 (by decide) s' k⟩

section Overwrite
variable {c : Config} {s : State} {p w n : Nat} {t : Trigger}

theorem exec_reserve (hp : p < c.threads) (hfree : (s.producers p).pc.free = true)
    (hgate : c.isClosed s.producerState = false) (hterminal : s.terminal = .success)
    (hroom : c.diff s.produced s.consumed < c.window) :
    exec (State.step c) s (.enqueue p t :: replicate 4 (.producer p)) =
      some (((s.arrive c).reserve c t).setProducer p ⟨.writingFst, t, s.produced, s.reserved.length⟩) := by
  have hroom' : ¬ c.word c.capacity ≤ c.diff s.produced s.consumed := not_le.2 hroom
  simp [exec, State.step, State.producerStep, State.setProducer, State.arrive, State.reserve, replicate, hp, hfree,
    hgate, hterminal, hroom']

theorem exec_store (hx : s.producers p = ⟨.writingFst, t, w, n⟩) :
    exec (State.step c) s (replicate 4 (.producer p)) =
      some { ((s.depart c).setSlot (c.slot w) t.publish).setProducer p ⟨.returned .success, t, w, n⟩ with
        published := n :: s.published } := by
  simp [exec, State.step, State.producerStep, State.setProducer, State.setSlot, State.depart, replicate,
    Trigger.publish, hx]

theorem exec_take (hhost : s.host = .idle) (hne : s.produced ≠ s.consumed)
    (hvalid : (s.slots (c.slot s.consumed)).trd &&& validField.place 1#64 ≠ 0#64) :
    exec (State.step c) s (replicate 5 (.host .dequeue) ++ [.host .consume]) =
      some { s.setSlot (c.slot s.consumed) { s.slots (c.slot s.consumed) with trd := 0 } with
        delivered := s.delivered ++ [(s.slots (c.slot s.consumed)).taken], consumed := c.word (s.consumed + 1)
        consumedCount := s.consumedCount + 1, host := .idle } := by
  simp [exec, State.step, State.hostStep, State.dequeueStep, State.setSlot, replicate, hhost, hne, hvalid]

/-- Nobody is at work, and `n` triggers have come and gone. -/
structure Quiet (c : Config) (n : Nat) (s : State) : Prop where
  gate : s.producerState = 0
  terminal : s.terminal = .success
  host : s.host = .idle
  free : ∀ p, (s.producers p).pc.free = true
  produced : s.produced = c.word n
  consumed : s.consumed = c.word n
  reserved : s.reserved.length = n
  consumedCount : s.consumedCount = n

def oneTrigger (t : Trigger) : List Action :=
  (.enqueue 0 t :: replicate 4 (.producer 0)) ++ replicate 4 (.producer 0) ++
    (replicate 5 (.host .dequeue) ++ [.host .consume])

theorem Config.diff_self (c : Config) (a : Nat) (ha : a < c.values) : c.diff a a = 0 := by
  rw [diff, Nat.mod_eq_of_lt ha, Nat.add_sub_cancel' ha.le, Nat.mod_self]

theorem Quiet.round (h : Quiet c n s) (hthreads : 0 < c.threads) (hwidth : 1 < c.width) (hwindow : 0 < c.window)
    (t : Trigger) : ∃ s', exec (State.step c) s (oneTrigger t) = some s' ∧ Quiet c (n + 1) s' := by
  have hvalues : 1 < c.values := Nat.one_lt_two_pow (by omega)
  have hlt : c.word n < c.values := Nat.mod_lt _ (by omega)
  have hgate : c.isClosed s.producerState = false := by rw [h.gate, Config.isClosed, Nat.zero_testBit]
  have hroom : c.diff s.produced s.consumed < c.window := by
    rw [h.produced, h.consumed, c.diff_self _ hlt]
    exact hwindow
  have hnext : c.word (c.word n + 1) = c.word (n + 1) := Nat.mod_add_mod ..
  rw [oneTrigger, exec_append, exec_append, exec_reserve hthreads (h.free 0) hgate h.terminal hroom, Option.bind_some,
    exec_store (State.setProducer_self ..), Option.bind_some]
  generalize hs₁ : State.mk .. = s₁
  have hgate₁ : s₁.producerState = 0 := by
    rw [← hs₁]
    show c.diff (c.word (s.producerState + 1)) 1 = 0
    rw [h.gate, Config.word, Nat.mod_eq_of_lt hvalues, c.diff_self _ hvalues]
  have hproduced₁ : s₁.produced = c.word (n + 1) := by
    rw [← hs₁]
    show c.word (s.produced + 1) = _
    rw [h.produced, hnext]
  have hconsumed₁ : s₁.consumed = c.word n := by
    rw [← hs₁]
    exact h.consumed
  have hreserved₁ : s₁.reserved.length = n + 1 := by
    rw [← hs₁]
    show (s.reserved ++ [t]).length = _
    rw [length_append, h.reserved, length_singleton]
  have hslot₁ : s₁.slots (c.slot s₁.consumed) = t.publish := by
    rw [hconsumed₁, ← hs₁]
    show update s.slots (c.slot s.produced) _ _ = _
    rw [h.produced, update_self]
  have hfree₁ : ∀ p, (s₁.producers p).pc.free = true := by
    intro p
    rw [← hs₁]
    show (update (update s.producers 0 _) 0 _ p).pc.free = true
    by_cases hp : p = 0
    · rw [hp, update_self]
      rfl
    · rw [update_of_ne hp, update_of_ne hp]
      exact h.free p
  have hne : s₁.produced ≠ s₁.consumed := by
    rw [hproduced₁, hconsumed₁]
    intro he
    have := add_le_of_slot_eq (a := n) (b := n + 1) (by omega) he.symm
    omega
  have hhost₁ : s₁.host = .idle := by
    rw [← hs₁]
    exact h.host
  have hterminal₁ : s₁.terminal = .success := by
    rw [← hs₁]
    exact h.terminal
  have hcount₁ : s₁.consumedCount = n := by
    rw [← hs₁]
    exact h.consumedCount
  rw [exec_take hhost₁ hne (by rw [hslot₁]; exact Trigger.publish_valid t)]
  refine ⟨_, rfl, hgate₁, hterminal₁, rfl, hfree₁, hproduced₁, ?_, hreserved₁, ?_⟩
  · rw [hconsumed₁, hnext]
  · rw [hcount₁]

theorem Quiet.init (c : Config) : Quiet c 0 State.init :=
  ⟨rfl, rfl, rfl, fun _ => rfl, (Nat.zero_mod _).symm, (Nat.zero_mod _).symm, rfl, rfl⟩

theorem reach_quiet (hthreads : 0 < c.threads) (hwidth : 1 < c.width) (hwindow : 0 < c.window) (n : Nat) :
    ∃ s, Reach (State.step c) (fun _ a => a ≠ .host .close) State.init s ∧ Quiet c n s := by
  induction n with
  | zero => exact ⟨_, .init, Quiet.init c⟩
  | succ n ih =>
    obtain ⟨s, hreach, hquiet⟩ := ih
    obtain ⟨s', hexec, hquiet'⟩ := hquiet.round hthreads hwidth hwindow ⟨0, 0, 0⟩
    exact ⟨s', hreach.trans (Reach.of_exec (fun _ _ ha he => absurd (he ▸ ha) (by decide)) hexec), hquiet'⟩

def shareSlot : List Action :=
  (.enqueue 0 ⟨1, 1, 1⟩ :: replicate 4 (.producer 0)) ++ (.enqueue 1 ⟨2, 2, 2⟩ :: replicate 4 (.producer 1)) ++
    replicate 4 (.producer 0)

theorem Quiet.overwritten (h : Quiet c n s) (hthreads : 1 < c.threads) (hwidth : 1 < c.width) (hwindow : 1 < c.window)
    (hcell : c.cell n = c.cell (n + 1)) : ∃ s', exec (State.step c) s shareSlot = some s' ∧ ¬ Delivers c s' := by
  have hvalues : 1 < c.values := Nat.one_lt_two_pow (by omega)
  have hlt : c.word n < c.values := Nat.mod_lt _ (by omega)
  have hgate : c.isClosed s.producerState = false := by rw [h.gate, Config.isClosed, Nat.zero_testBit]
  have hroom : c.diff s.produced s.consumed < c.window := by
    rw [h.produced, h.consumed, c.diff_self _ hlt]
    omega
  have hnext : c.word (c.word n + 1) = c.word (n + 1) := Nat.mod_add_mod ..
  rw [shareSlot, exec_append, exec_append, exec_reserve (by omega) (h.free 0) hgate h.terminal hroom, Option.bind_some]
  generalize hs₁ : State.setProducer _ 0 _ = s₁
  have hgate₁ : c.isClosed s₁.producerState = false := by
    rw [← hs₁]
    show c.isClosed (c.word (s.producerState + 1)) = false
    rw [h.gate, Config.word, Nat.mod_eq_of_lt hvalues]
    exact Nat.testBit_lt_two_pow (Nat.one_lt_two_pow (by omega))
  have hproduced₁ : s₁.produced = c.word (n + 1) := by
    rw [← hs₁]
    show c.word (s.produced + 1) = _
    rw [h.produced, hnext]
  have hconsumed₁ : s₁.consumed = c.word n := by rw [← hs₁]; exact h.consumed
  have hroom₁ : c.diff s₁.produced s₁.consumed < c.window := by
    have hone : c.diff (c.word (n + 1)) (c.word n) = n + 1 - n := wrapDiff_of_le (by omega) (Nat.le_succ n) (by omega)
    rw [hproduced₁, hconsumed₁, hone]
    omega
  have hlen₁ : s₁.reserved.length = n + 1 := by
    rw [← hs₁]
    show (s.reserved ++ [_]).length = n + 1
    rw [length_append, h.reserved, length_singleton]
  have hzero₁ : s₁.producers 0 = ⟨.writingFst, ⟨1, 1, 1⟩, c.word n, n⟩ := by
    rw [← hs₁, State.setProducer_self, h.produced, h.reserved]
  have hfree₁ : (s₁.producers 1).pc.free = true := by
    rw [← hs₁, State.setProducer_of_ne _ (by decide)]
    exact h.free 1
  have hterminal₁ : s₁.terminal = .success := by rw [← hs₁]; exact h.terminal
  have hcount₁ : s₁.consumedCount = n := by rw [← hs₁]; exact h.consumedCount
  rw [exec_reserve hthreads hfree₁ hgate₁ hterminal₁ hroom₁, Option.bind_some, hproduced₁, hlen₁]
  have hzero₂ : (((s₁.arrive c).reserve c ⟨2, 2, 2⟩).setProducer 1
      ⟨.writingFst, ⟨2, 2, 2⟩, c.word (n + 1), n + 1⟩).producers 0 =
      ⟨.writingFst, ⟨1, 1, 1⟩, c.word n, n⟩ := by
    exact hzero₁
  rw [exec_store hzero₂]
  refine ⟨_, rfl, fun hdelivers => ?_⟩
  generalize hs₃ : State.mk .. = s₃ at hdelivers
  have hone : s₃.producers 1 = ⟨.writingFst, ⟨2, 2, 2⟩, c.word (n + 1), n + 1⟩ := by
    rw [← hs₃]
    dsimp only [State.setProducer, State.setSlot, State.depart]
    rw [update_of_ne Nat.one_ne_zero, update_self]
  have hslot : s₃.slots (c.cell n) = Trigger.publish ⟨1, 1, 1⟩ := by
    rw [← hs₃]
    exact update_self ..
  have hpub : n ∈ s₃.published := by
    rw [← hs₃]
    exact mem_cons_self
  have hcount : s₃.consumedCount ≤ n := by
    rw [← hs₃]
    exact hcount₁.le
  have hstep : ∃ s', s₃.producerStep c 1 = some s' ∧ (s'.slots (c.cell n)).fst = 2 := by
    refine ⟨_, by rw [State.producerStep, hone], ?_⟩
    show (update s₃.slots (c.slot (c.word (n + 1))) _ (c.cell n)).fst = 2
    rw [hcell, Config.cell, update_self]
  obtain ⟨s', hs', hfst⟩ := hstep
  rw [hdelivers.untouched 1 s' hs' n hpub hcount, hslot] at hfst
  revert hfst
  decide

end Overwrite

theorem shared_slot_is_overwritten :
    ¬ ∀ s, Reach (State.step threeSlots) (fun _ a => a ≠ .host .close) State.init s → Delivers threeSlots s := by
  intro h
  obtain ⟨s, hreach, hquiet⟩ := reach_quiet (c := threeSlots) (by decide) (by decide) (by decide) (2 ^ 32 - 1)
  obtain ⟨s', hexec, hnot⟩ := hquiet.overwritten (by decide) (by decide) (by decide) (by decide)
  exact hnot (h s' (hreach.trans (Reach.of_exec (fun _ _ ha he => absurd (he ▸ ha) (by decide)) hexec)))

end FlagCX.DeviceFifo
