import FlagCX.DeviceFifo.Delivery
import FlagCX.DeviceFifo.Gate
import FlagCX.KernelProxy.Orderly
import FlagCX.KernelProxy.Service

/-!
# What a device flush that succeeds has seen

* `Watched` : a flusher that leaves its loop on the counter finds the terminal status still a success.
* `Honest`  : the invariant of the service.
* `flush_hides_nothing` : every run in which flushers leave so; `flush_hides_failure` : one in which a flusher does not.
-/

namespace FlagCX.KernelProxy
open List Option

open Net Lib DeviceFifo

/-! ## Words -/

section Words
variable {c : Config} {a b : Nat}

theorem before_eq (hw : 0 < c.width) (a b : Nat) : c.before a b = wrapLess c.values a b := by
  have hvalues := c.values_eq hw
  have hlt : c.diff a b < c.values := Nat.mod_lt _ (Nat.two_pow_pos _)
  have hhalf : c.values / 2 = 2 ^ (c.width - 1) := by omega
  rw [Config.before, wrapLess, hhalf]
  show _ = decide (2 ^ (c.width - 1) ≤ c.diff a b)
  by_cases hle : 2 ^ (c.width - 1) ≤ c.diff a b
  · rw [decide_eq_true hle]
    refine Nat.testBit_of_two_pow_le_and_two_pow_add_one_gt hle ?_
    rw [pow_succ, mul_comm, ← hvalues]
    exact hlt
  · rw [decide_eq_false hle]
    exact Nat.testBit_lt_two_pow (not_le.1 hle)

theorem reached_of_not_before (hw : 0 < c.width) (hbefore : c.before (c.word a) (c.word b) = false)
    (hnear : b ≤ a + c.values / 2) : b ≤ a := by
  by_contra hlt
  rw [before_eq hw] at hbefore
  have hless : wrapLess c.values (c.word a) (c.word b) = true := wrapLess_of_lt (not_le.1 hlt) hnear
  rw [hless] at hbefore
  cases hbefore

end Words

/-! ## The invariant -/

/-- The first `n` reserved triggers were taken in this order and have completed with success. -/
def Settled (s : Service) (n : Nat) : Prop :=
  ∀ m < n, ∃ t, s.fifo.reserved[m]? = some t ∧ (takes (s.log ++ s.todo))[m]? = some t.publish.taken ∧
    resultOf s.log (m + 1) = some .success

/-- While the terminal status is success, sequences are reserved apart; a flusher that leaves its loop on the counter is not
half the words ahead of it and finds the terminal status still a success. -/
structure Watched (c : Config) (s : Service) (a : ServiceAct) : Prop where
  apart : s.fifo.terminal = .success → ∀ d, a = .device d → Apart c s.fifo d
  exits : ∀ f, a = .device (.flusher f) → (s.fifo.flushers f).pc = .polling →
    c.before s.fifo.completed (s.fifo.flushers f).snapshot = false →
      s.fifo.terminal = .success ∧ (s.fifo.flushers f).upTo ≤ s.fifo.completedCount + c.values / 2

def Phase.gated : Phase → Bool
  | .loaded _ closed _ => closed
  | .closing _ | .finalizing => true
  | .draining closed => closed
  | _ => false

/-- What `dequeue` has just taken. -/
def Phase.fetched (phase : Phase) (host : Host) : List Trigger :=
  match phase, host with
  | .dequeuing, .pending t => [t]
  | _, _ => []

/-- Without a terminal status the counters of the FIFO are those of the worker. -/
structure Clear (c : Config) (s : Service) : Prop where
  cells : Cells c s.fifo
  consumed : s.fifo.consumedCount = consumes s.log
  completed : s.fifo.completedCount = advances s.log
  word : s.fifo.completed = c.word s.fifo.completedCount
  taken : s.fifo.delivered = takes (s.log ++ s.todo) ++ s.phase.fetched s.fifo.host
  snapshots : ∀ f, (s.fifo.flushers f).pc = .polling ∨ (s.fifo.flushers f).pc = .spinning →
    (s.fifo.flushers f).snapshot = c.word (s.fifo.flushers f).upTo ∧ (s.fifo.flushers f).upTo ≤ s.fifo.reserved.length

structure Honest (c : Config) (s : Service) : Prop where
  standing : Standing s.worker (s.log ++ s.todo)
  final : s.terminalResult ≠ .success → isTerminal s.terminalResult = true
  seen : Published s.log → s.fifo.terminal ≠ .success
  loaded : ∀ r closed drained, s.phase = .loaded r closed drained → r ≠ .success → isTerminal r = true
  gated : s.phase.gated = true → s.fifo.terminal ≠ .success
  fresh : s.phase = .dequeuing → s.worker.pending = none ∧ s.todo = []
  clear : s.fifo.terminal = .success → Clear c s
  flushed : ∀ f, (s.fifo.flushers f).pc = .returned .success → Settled s (s.fifo.flushers f).upTo

/-! ## Steps of the device -/

section Device
variable {c : Config} {s s' : State}

/-- What a step of a device thread leaves. -/
structure Beside (s s' : State) : Prop where
  terminal : s'.terminal = s.terminal
  host : s'.host = s.host
  delivered : s'.delivered = s.delivered
  consumed : s'.consumedCount = s.consumedCount
  completed : s'.completed = s.completed
  completedCount : s'.completedCount = s.completedCount
  reserved : ∃ p, s'.reserved = s.reserved ++ p

theorem producer_beside {p : Nat} (hs : s.producerStep c p = some s') : Beside s s' ∧ s'.flushers = s.flushers := by
  rw [State.producerStep] at hs
  cases hpc : (s.producers p).pc <;> rw [hpc] at hs <;> cases hs
  case entered => exact ⟨⟨rfl, rfl, rfl, rfl, rfl, rfl, _, rfl⟩, rfl⟩
  all_goals exact ⟨⟨rfl, rfl, rfl, rfl, rfl, rfl, [], (append_nil _).symm⟩, rfl⟩

theorem flusher_beside (f : Nat) (x : Flusher) : Beside s (s.setFlusher f x) :=
  ⟨rfl, rfl, rfl, rfl, rfl, rfl, [], (append_nil _).symm⟩

theorem flusher_cases {f : Nat} (hs : s.flusherStep c f = some s') : ∃ x, s' = s.setFlusher f x ∧
    (x.pc = .returned .success → (s.flushers f).pc = .polling ∧ c.before s.completed (s.flushers f).snapshot = false ∧
      x.upTo = (s.flushers f).upTo) ∧
    (x.pc = .polling ∨ x.pc = .spinning →
      ((s.flushers f).pc = .loading ∧ x.snapshot = s.produced ∧ x.upTo = s.reserved.length) ∨
      (((s.flushers f).pc = .polling ∨ (s.flushers f).pc = .spinning) ∧ x.snapshot = (s.flushers f).snapshot ∧
        x.upTo = (s.flushers f).upTo)) := by
  rw [State.flusherStep] at hs
  cases hpc : (s.flushers f).pc with
  | idle | returned =>
    rw [hpc] at hs
    cases hs
  | starting =>
    rw [hpc] at hs
    cases hs
    refine ⟨_, rfl, ?_, ?_⟩
    · split_ifs with hterminal
      · exact fun he => absurd (FlusherPc.returned.inj he) hterminal
      · rintro ⟨⟩
    · split_ifs <;> rintro (h | h) <;> cases h
  | loading =>
    rw [hpc] at hs
    cases hs
    exact ⟨_, rfl, by rintro ⟨⟩, fun _ => .inl ⟨rfl, rfl, rfl⟩⟩
  | polling =>
    rw [hpc] at hs
    cases hs
    refine ⟨_, rfl, ?_, fun _ => .inr ⟨.inl rfl, rfl, rfl⟩⟩
    cases hbefore : c.before s.completed (s.flushers f).snapshot with
    | true => rintro ⟨⟩
    | false => exact fun _ => ⟨rfl, rfl, rfl⟩
  | spinning =>
    rw [hpc] at hs
    cases hs
    refine ⟨_, rfl, ?_, fun _ => .inr ⟨.inr rfl, rfl, rfl⟩⟩
    split_ifs with hterminal
    · exact fun he => absurd (FlusherPc.returned.inj he) hterminal
    · rintro ⟨⟩

/-- What an access of the worker leaves. -/
structure Aside (s s' : State) : Prop where
  flushers : s'.flushers = s.flushers
  reserved : s'.reserved = s.reserved
  terminal : s.terminal ≠ .success → s'.terminal ≠ .success

theorem dequeue_aside (hs : s.dequeueStep c = some s') : Aside s s' := by
  rw [State.dequeueStep] at hs
  cases hhost : s.host <;> rw [hhost] at hs <;> cases hs
  case idle => split_ifs <;> exact ⟨rfl, rfl, id⟩
  all_goals exact ⟨rfl, rfl, id⟩

theorem hostStep_aside {a : HostAction} (hs : s.hostStep c a = some s') : Aside s s' := by
  cases a with
  | dequeue => exact dequeue_aside hs
  | finalize =>
    rw [State.hostStep, State.finalizeStep] at hs
    cases hhost : s.host <;> rw [hhost] at hs <;> cases hs <;> exact ⟨rfl, rfl, id⟩
  | consume | await =>
    rw [State.hostStep] at hs
    split at hs <;> cases hs
    exact ⟨rfl, rfl, id⟩
  | advance | close =>
    rw [State.hostStep] at hs
    split_ifs at hs
    cases hs
    exact ⟨rfl, rfl, id⟩
  | storeTerminal r =>
    rw [State.hostStep] at hs
    split_ifs at hs with hok
    cases hs
    exact ⟨rfl, rfl, fun _ => hok.2.1⟩

theorem dequeue_counts (hs : s.dequeueStep c = some s') : s'.terminal = s.terminal ∧ s'.consumedCount = s.consumedCount ∧
    s'.completed = s.completed ∧ s'.completedCount = s.completedCount ∧
    s'.delivered = s.delivered ++ Phase.dequeuing.fetched s'.host := by
  have hnone := (append_nil s.delivered).symm
  rw [State.dequeueStep] at hs
  cases hhost : s.host with
  | idle =>
    rw [hhost] at hs
    cases hs
    split_ifs
    · refine ⟨rfl, rfl, rfl, rfl, ?_⟩
      rw [hhost]
      exact hnone
    · exact ⟨rfl, rfl, rfl, rfl, hnone⟩
  | looked =>
    rw [hhost] at hs
    cases hs
    refine ⟨rfl, rfl, rfl, rfl, ?_⟩
    split_ifs <;> exact hnone
  | valid | readFst =>
    rw [hhost] at hs
    cases hs
    exact ⟨rfl, rfl, rfl, rfl, hnone⟩
  | readSnd =>
    rw [hhost] at hs
    cases hs
    exact ⟨rfl, rfl, rfl, rfl, rfl⟩
  | _ =>
    rw [hhost] at hs
    cases hs

end Device

section Honest
variable {c : Config} {contextId : Int} {s s' : Service} {n : Nat}

theorem Settled.mono (h : Settled s n) (hreserved : ∃ p, s'.fifo.reserved = s.fifo.reserved ++ p)
    (htakes : ∃ p, takes (s'.log ++ s'.todo) = takes (s.log ++ s.todo) ++ p) (hlog : ∃ p, s'.log = s.log ++ p) :
    Settled s' n := by
  obtain ⟨p, hp⟩ := hreserved
  obtain ⟨q, hq⟩ := htakes
  obtain ⟨l, hl⟩ := hlog
  intro m hm
  obtain ⟨t, hres, htaken, hdone⟩ := h m hm
  refine ⟨t, ?_, ?_, ?_⟩
  · rw [hp, getElem?_append_left (List.getElem?_eq_some_iff.1 hres).1]
    exact hres
  · rw [hq, getElem?_append_left (List.getElem?_eq_some_iff.1 htaken).1]
    exact htaken
  · rw [hl, resultOf_append, hdone, some_or]

theorem Honest.beside (h : Honest c s) {fifo : State} (hb : Beside s.fifo fifo)
    (hcells : s.fifo.terminal = .success → Cells c fifo)
    (hsnapshots : s.fifo.terminal = .success → ∀ f, (fifo.flushers f).pc = .polling ∨ (fifo.flushers f).pc = .spinning →
      (fifo.flushers f).snapshot = c.word (fifo.flushers f).upTo ∧ (fifo.flushers f).upTo ≤ fifo.reserved.length)
    (hflushed : ∀ f, (fifo.flushers f).pc = .returned .success → Settled s (fifo.flushers f).upTo) :
    Honest c { s with fifo := fifo } := by
  refine { h with
    seen := fun hp => hb.terminal ▸ h.seen hp
    gated := fun hg => hb.terminal ▸ h.gated hg
    clear := fun hterminal => ?_
    flushed := fun f hf => (hflushed f hf).mono hb.reserved ⟨[], (append_nil _).symm⟩ ⟨[], (append_nil _).symm⟩ }
  have hterminal' : s.fifo.terminal = .success := hb.terminal ▸ hterminal
  have hclear := h.clear hterminal'
  constructor
  · exact hcells hterminal'
  · exact hb.consumed.trans hclear.consumed
  · exact hb.completedCount.trans hclear.completed
  · rw [hb.completed, hb.completedCount]
    exact hclear.word
  · rw [hb.delivered, hb.host]
    exact hclear.taken
  · exact hsnapshots hterminal'

theorem Clear.settled (hw : 0 < c.width) (h : Honest c s) (hclear : Clear c s) (hterminal : s.fifo.terminal = .success) {f : Nat}
    (hpolling : (s.fifo.flushers f).pc = .polling)
    (hbefore : c.before s.fifo.completed (s.fifo.flushers f).snapshot = false)
    (hnear : (s.fifo.flushers f).upTo ≤ s.fifo.completedCount + c.values / 2) : Settled s (s.fifo.flushers f).upTo := by
  have hcells := hclear.cells
  have hlawful : Justified Allowed s.log := h.standing.ordered.lawful.of_append
  obtain ⟨hsnapshot, -⟩ := hclear.snapshots f (.inl hpolling)
  rw [hclear.word, hsnapshot] at hbefore
  have hreached := reached_of_not_before hw hbefore hnear
  rw [hclear.completed] at hreached
  intro m hm
  obtain ⟨r, hr, hpublished⟩ := Allowed.completed hlawful (Nat.succ_pos m) (lt_of_lt_of_le hm hreached)
  have hsuccess : r = .success := by
    by_contra hne
    exact h.seen (hpublished hne) hterminal
  -- `m` is behind what was consumed, and so among what was taken
  have hconsumed : m < consumes s.log := lt_of_lt_of_le (lt_of_lt_of_le hm hreached) (Allowed.advances_le hlawful)
  obtain ⟨prior, htaken, hlength⟩ := h.standing.taken
  have hm' : m < (takes (s.log ++ s.todo)).length := by
    rw [htaken, length_append, hlength, consumes_append]
    omega
  have hdelivered : m < s.fifo.delivered.length := by
    rw [hclear.taken, length_append]
    omega
  have hres : m < s.fifo.reserved.length := hdelivered.trans_le hcells.taken_le
  refine ⟨s.fifo.reserved[m], getElem?_eq_getElem hres, ?_, by rw [hr, hsuccess]⟩
  have hget : s.fifo.delivered[m]? = (takes (s.log ++ s.todo) ++ s.phase.fetched s.fifo.host)[m]? := by rw [← hclear.taken]
  rw [getElem?_append_left hm', hcells.delivered, getElem?_map, getElem?_take_of_lt hdelivered,
    getElem?_eq_getElem hres] at hget
  exact hget.symm

theorem Honest.setFlusher (h : Honest c s) {f : Nat} {x : Flusher}
    (hcells : s.fifo.terminal = .success → Cells c (s.fifo.setFlusher f x))
    (hsnapshot : s.fifo.terminal = .success → x.pc = .polling ∨ x.pc = .spinning →
      x.snapshot = c.word x.upTo ∧ x.upTo ≤ s.fifo.reserved.length)
    (hflushed : x.pc = .returned .success → Settled s x.upTo) : Honest c { s with fifo := s.fifo.setFlusher f x } := by
  refine h.beside (flusher_beside f x) hcells (fun hterminal g hg => ?_) fun g hg => ?_
  · by_cases hgf : g = f
    · rw [hgf, State.setFlusher_self] at hg ⊢
      exact hsnapshot hterminal hg
    · rw [State.setFlusher_of_ne _ hgf] at hg ⊢
      exact (h.clear hterminal).snapshots g hg
  · by_cases hgf : g = f
    · rw [hgf, State.setFlusher_self] at hg ⊢
      exact hflushed hg
    · rw [State.setFlusher_of_ne _ hgf] at hg ⊢
      exact h.flushed g hg

/-- **An access of a device thread.** -/
theorem Honest.device (hw : 0 < c.width) (h : Honest c s) {a : Action} (hok : Watched c s (.device a))
    (hs : Service.step c contextId s (.device a) = some s') : Honest c s' := by
  have hcells : ∀ {fifo}, s.fifo.step c a = some fifo → s.fifo.terminal = .success → Cells c fifo :=
    fun hstep hterminal => (h.clear hterminal).cells.step (hok.apart hterminal a rfl) hstep
  cases a with
  | host a => cases hs
  | enqueue p t =>
    obtain ⟨fifo, hstep, rfl⟩ := map_eq_some_iff.1 hs
    have hc := hcells hstep
    rw [State.step] at hstep
    split_ifs at hstep
    cases hstep
    refine h.beside ⟨rfl, rfl, rfl, rfl, rfl, rfl, [], (append_nil _).symm⟩ hc ?_ h.flushed
    exact fun hterminal => (h.clear hterminal).snapshots
  | producer p =>
    obtain ⟨fifo, hstep, rfl⟩ := map_eq_some_iff.1 hs
    have hc := hcells hstep
    obtain ⟨hb, hflushers⟩ := producer_beside hstep
    obtain ⟨q, hq⟩ := hb.reserved
    refine h.beside hb hc (fun hterminal f hf => ?_) fun f hf => ?_
    · rw [hflushers] at hf ⊢
      obtain ⟨hsnapshot, hle⟩ := (h.clear hterminal).snapshots f hf
      refine ⟨hsnapshot, hle.trans ?_⟩
      rw [hq, length_append]
      exact Nat.le_add_right _ _
    · rw [hflushers] at hf ⊢
      exact h.flushed f hf
  | flush f =>
    obtain ⟨fifo, hstep, rfl⟩ := map_eq_some_iff.1 hs
    have hc := hcells hstep
    rw [State.step] at hstep
    split_ifs at hstep
    cases hstep
    refine h.setFlusher hc ?_ (by rintro ⟨⟩)
    rintro - (hpc | hpc) <;> cases hpc
  | flusher f =>
    obtain ⟨fifo, hstep, rfl⟩ := map_eq_some_iff.1 hs
    have hc := hcells hstep
    obtain ⟨x, rfl, hreturned, hloop⟩ := flusher_cases hstep
    refine h.setFlusher hc (fun hterminal hx => ?_) fun hx => ?_
    · rcases hloop hx with ⟨-, hsnapshot, hupTo⟩ | ⟨hpc, hsnapshot, hupTo⟩
      · rw [hsnapshot, hupTo]
        exact ⟨(h.clear hterminal).cells.produced, le_rfl⟩
      · rw [hsnapshot, hupTo]
        exact (h.clear hterminal).snapshots f hpc
    · obtain ⟨hpc, hbefore, hupTo⟩ := hreturned hx
      obtain ⟨hterminal, hnear⟩ := hok.exits f rfl hpc hbefore
      rw [hupTo]
      exact (h.clear hterminal).settled hw h hterminal hpc hbefore hnear

/-! ### The worker -/

variable {phase : Phase}

theorem fetched_of_ne (hne : phase ≠ .dequeuing) (host : Host) : phase.fetched host = [] := by
  cases phase <;> first | rfl | exact absurd rfl hne

section

variable (h : Honest c s) (htodo : s.todo = [])
include h htodo

theorem Honest.decided {w : Worker} {p : List Effect} (hstanding : Standing w (s.log ++ p)) (hne : phase ≠ .dequeuing)
    (hphase : phase = .idle ∨ phase = .polled ∨ phase = s.phase) (htakes : takes p = s.phase.fetched s.fifo.host) :
    Honest c { s with worker := w, todo := p, phase := phase } := by
  refine { h with
    standing := hstanding
    loaded := fun r closed drained he => ?_
    gated := fun hg => ?_
    fresh := fun he => absurd he hne
    clear := fun hterminal => ?_
    flushed := fun f hf => (h.flushed f hf).mono ⟨[], (append_nil _).symm⟩ ⟨takes p, ?_⟩ ⟨[], (append_nil _).symm⟩ }
  · rcases hphase with rfl | rfl | rfl
    · cases he
    · cases he
    · exact h.loaded r closed drained he
  · rcases hphase with rfl | rfl | rfl
    · cases hg
    · cases hg
    · exact h.gated hg
  · have hclear := h.clear hterminal
    refine { hclear with taken := ?_ }
    rw [hclear.taken, htodo, append_nil, takes_append, htakes, fetched_of_ne hne, append_nil]
  · rw [htodo, append_nil]
    exact takes_append ..

theorem Honest.poll {stopping canTest : Bool} {first second : Nat → Kernel.Answers}
    (hs : s.poll stopping canTest first second = some s') : Honest c s' := by
  have hstanding := h.standing
  rw [htodo, append_nil] at hstanding
  have hgoes := hstanding.poll canTest first second
  rw [Service.poll] at hs
  cases hphase : s.phase with
  | idle =>
    rw [hphase] at hs
    cases hs
    cases stopping with
    | true => exact h.decided htodo hgoes.standing nofun (.inl rfl) (by rw [hphase]; exact hgoes.takes)
    | false => exact h.decided htodo hgoes.standing nofun (.inr (.inl rfl)) (by rw [hphase]; exact hgoes.takes)
  | draining closed =>
    rw [hphase] at hs
    cases hs
    exact h.decided htodo hgoes.standing nofun (.inr (.inr hphase.symm)) (by rw [hphase]; exact hgoes.takes)
  | _ =>
    rw [hphase] at hs
    cases hs

theorem Honest.progress (hphase : s.phase = .polled) (node : Node) (reply : Reply) :
    Honest c (s.progress contextId node reply) := by
  have hstanding := h.standing
  rw [htodo, append_nil] at hstanding
  rw [Service.progress]
  split_ifs with hcall
  · -- the worker has consumed all that `dequeue` has returned
    refine { h with
      loaded := by rintro _ _ _ ⟨⟩
      gated := by rintro ⟨⟩
      fresh := fun _ => ⟨hcall.2, htodo⟩
      clear := fun hterminal => ?_
      flushed := h.flushed }
    have hclear := h.clear hterminal
    refine { hclear with taken := ?_ }
    have htaken := hclear.taken
    rw [fetched_of_ne (by rw [hphase]; rintro ⟨⟩), append_nil] at htaken
    rw [htaken]
    cases hhost : s.fifo.host with
    | pending t =>
      have hlength : s.fifo.delivered.length = s.fifo.consumedCount + 1 := by
        have hworker := hclear.cells.worker
        rw [State.Worker, hhost] at hworker
        exact hworker
      obtain ⟨prior, hprior, hcount⟩ := hstanding.taken
      rw [htaken, htodo, append_nil, hprior, hcall.2, toList_none, append_nil, hclear.consumed, hcount] at hlength
      omega
    | _ => exact (append_nil _).symm
  · obtain ⟨hnext, htakes⟩ := hstanding.progress node contextId s.terminalResult none reply
    refine h.decided htodo hnext (by simp) (.inl rfl) ?_
    rw [htakes, hphase, toList_none, ite_self]
    rfl

theorem Honest.dequeue (hphase : s.phase = .dequeuing) {node : Node} {reply : Reply}
    (hs : s.dequeue c contextId node reply = some s') : Honest c s' := by
  obtain ⟨hpending, -⟩ := h.fresh hphase
  have hstanding := h.standing
  rw [htodo, append_nil] at hstanding
  rw [Service.dequeue] at hs
  by_cases htook : ∃ t, s.fifo.host = .pending t
  · obtain ⟨t, hhost⟩ := htook
    rw [hhost] at hs
    cases hs
    obtain ⟨hnext, htakes⟩ := hstanding.progress node contextId .success (some t) reply
    refine h.decided htodo hnext nofun (.inl rfl) ?_
    rw [htakes, if_pos ⟨rfl, hpending⟩, hphase, hhost]
    rfl
  -- `dequeue` is under way
  have hnone : s.phase.fetched s.fifo.host = [] := by
    rw [hphase]
    cases hhost : s.fifo.host with
    | pending t => exact absurd ⟨t, hhost⟩ htook
    | _ => rfl
  have hs' : (s.host c .dequeue).map (fun s => { s with phase := if s.fifo.host = .idle then .idle else .dequeuing }) =
      some s' := by
    cases hhost : s.fifo.host with
    | pending t => exact absurd ⟨t, hhost⟩ htook
    | _ =>
      rw [hhost] at hs
      exact hs
  rw [Service.host, Option.map_map] at hs'
  obtain ⟨fifo, hstep, rfl⟩ := map_eq_some_iff.1 hs'
  dsimp only [Function.comp]
  have haside := dequeue_aside hstep
  obtain ⟨hterminal, hconsumed, hcompleted, hcount, hdelivered⟩ := dequeue_counts hstep
  refine { h with
    seen := fun hp => haside.terminal (h.seen hp)
    loaded := fun r closed drained he => ?_
    gated := fun hg => ?_
    fresh := fun _ => ⟨hpending, htodo⟩
    clear := fun hclean => ?_
    flushed := fun f hf => ?_ }
  · split_ifs at he
  · split_ifs at hg <;> cases hg
  · have hclear := h.clear (hterminal ▸ hclean)
    refine ⟨hclear.cells.dequeue hstep, hconsumed.trans hclear.consumed, hcount.trans hclear.completed, ?_, ?_, ?_⟩
    · rw [hcompleted, hcount]
      exact hclear.word
    · rw [hdelivered, hclear.taken, hnone, append_nil]
      split_ifs with hidle
      · rw [hidle]
        rfl
      · rfl
    · rw [haside.flushers, haside.reserved]
      exact hclear.snapshots
  · rw [haside.flushers] at hf ⊢
    exact (h.flushed f hf).mono ⟨[], by rw [append_nil]; exact haside.reserved⟩ ⟨[], (append_nil _).symm⟩
      ⟨[], (append_nil _).symm⟩

end

/-- What an effect that is carried out leaves. -/
structure Carried (c : Config) (e : Effect) (s s' : Service) : Prop where
  worker : s'.worker = s.worker
  phase : s'.phase = s.phase
  log : s'.log = s.log
  todo : s'.todo = s.todo
  final : s'.terminalResult ≠ .success → isTerminal s'.terminalResult = true
  aside : Aside s.fifo s'.fifo
  published : ∀ r, e = .publish r → isTerminal r = true → s'.fifo.terminal ≠ .success
  clear : s'.fifo.terminal = .success → Cells c s.fifo → s.fifo.completed = c.word s.fifo.completedCount →
    Cells c s'.fifo ∧ s'.fifo.consumedCount = s.fifo.consumedCount + consumes [e] ∧
      s'.fifo.completedCount = s.fifo.completedCount + advances [e] ∧ s'.fifo.completed = c.word s'.fifo.completedCount ∧
      s'.fifo.delivered = s.fifo.delivered

variable {e : Effect}

theorem carried_same (hfinal : s.terminalResult ≠ .success → isTerminal s.terminalResult = true)
    (hconsumes : consumes [e] = 0) (hadvances : advances [e] = 0) (hpublish : ∀ r, e = .publish r → isTerminal r ≠ true) :
    Carried c e s s where
  worker := rfl
  phase := rfl
  log := rfl
  todo := rfl
  final := hfinal
  aside := ⟨rfl, rfl, id⟩
  published := fun r he hr => absurd hr (hpublish r he)
  clear := fun _ hcells hword => ⟨hcells, by rw [hconsumes, add_zero], by rw [hadvances, add_zero], hword, rfl⟩

theorem storeTerminal_spec {r : Result} (hs : s.storeTerminal c r = some s') : ∃ fifo, s' = { s with fifo := fifo } ∧
    Aside s.fifo fifo ∧ (isTerminal r = true → fifo.terminal ≠ .success) ∧ (isTerminal r ≠ true → fifo = s.fifo) := by
  rw [Service.storeTerminal] at hs
  split_ifs at hs with hr
  · obtain ⟨fifo, hstep, rfl⟩ := map_eq_some_iff.1 hs
    refine ⟨fifo, rfl, hostStep_aside hstep, fun _ => ?_, fun hne => absurd hr hne⟩
    rw [State.hostStep] at hstep
    split_ifs at hstep
    cases hstep
    exact isTerminal_ne hr
  · cases hs
    exact ⟨s.fifo, rfl, ⟨rfl, rfl, id⟩, fun hyes => absurd hyes hr, fun _ => rfl⟩

theorem carryOut_carried (hfinal : s.terminalResult ≠ .success → isTerminal s.terminalResult = true)
    (hs : s.carryOut c e = some s') : Carried c e s s' := by
  cases e with
  | publish r =>
    rw [Service.carryOut] at hs
    by_cases hr : isTerminal r = true
    swap
    · rw [if_neg hr] at hs
      cases hs
      exact carried_same hfinal rfl rfl fun r' he => by cases he; exact hr
    rw [if_pos hr] at hs
    have hterminal : isTerminal (if s.terminalResult = .success then r else s.terminalResult) = true := by
      split_ifs with hnone
      · exact hr
      · exact hfinal hnone
    obtain ⟨fifo, rfl, haside, hset, -⟩ := storeTerminal_spec hs
    exact ⟨rfl, rfl, rfl, rfl, fun _ => hterminal, haside, fun _ _ _ => hset hterminal,
      fun hclean => absurd hclean (hset hterminal)⟩
  | store r =>
    obtain ⟨fifo, rfl, haside, hset, hsame⟩ := storeTerminal_spec hs
    refine ⟨rfl, rfl, rfl, rfl, hfinal, haside, by simp, fun hclean hcells hword => ?_⟩
    obtain rfl : fifo = s.fifo := hsame fun hr => hset hr hclean
    exact ⟨hcells, rfl, rfl, hword, rfl⟩
  | consume =>
    obtain ⟨fifo, hstep, rfl⟩ := map_eq_some_iff.1 hs
    refine ⟨rfl, rfl, rfl, rfl, hfinal, hostStep_aside hstep, by simp, fun _ hcells hword => ?_⟩
    refine ⟨hcells.host (a := .consume) (by simp) hstep, ?_⟩
    rw [State.hostStep] at hstep
    split at hstep <;> cases hstep
    exact ⟨rfl, rfl, hword, rfl⟩
  | advance n =>
    obtain ⟨fifo, hstep, rfl⟩ := map_eq_some_iff.1 hs
    refine ⟨rfl, rfl, rfl, rfl, hfinal, hostStep_aside hstep, by simp, fun _ hcells hword => ?_⟩
    refine ⟨hcells.host (a := .advance n) (by simp) hstep, ?_⟩
    rw [State.hostStep] at hstep
    split_ifs at hstep
    cases hstep
    refine ⟨rfl, rfl, ?_, rfl⟩
    rw [hword]
    exact Nat.mod_add_mod ..
  | _ =>
    cases hs
    exact carried_same hfinal rfl rfl (by simp)

/-- **An access that was decided.** -/
theorem Honest.access (h : Honest c s) {es : List Effect} (htodo : s.todo = e :: es) {s₁ : Service}
    (hs : s.carryOut c e = some s₁) : Honest c { s₁ with todo := es, log := s₁.log ++ [e] } := by
  have hcarried := carryOut_carried h.final hs
  have hbusy : s.todo ≠ [] := by rw [htodo]; exact cons_ne_nil e es
  have hne : s₁.phase ≠ .dequeuing := fun he => hbusy (h.fresh (hcarried.phase ▸ he)).2
  have hall : s₁.log ++ [e] ++ es = s.log ++ s.todo := by
    rw [hcarried.log, htodo]
    exact (append_cons ..).symm
  refine ⟨?_, hcarried.final, fun hp => ?_, fun r closed drained he => ?_, fun hg => ?_, fun he => absurd he hne,
    fun hclean => ?_, fun f hf => ?_⟩
  · rw [hcarried.worker, hall]
    exact h.standing
  · by_cases he : ∃ r, e = .publish r ∧ isTerminal r = true
    · obtain ⟨r, he, hr⟩ := he
      exact hcarried.published r he hr
    · refine hcarried.aside.terminal (h.seen ?_)
      rw [← hcarried.log]
      exact hp.of_concat fun r hr heq => he ⟨r, heq, hr⟩
  · exact h.loaded r closed drained (hcarried.phase ▸ he)
  · exact hcarried.aside.terminal (h.gated (hcarried.phase ▸ hg))
  · have hclear := h.clear (by_contra fun hne => hcarried.aside.terminal hne hclean)
    obtain ⟨hcells, hconsumed, hcompleted, hword, hdelivered⟩ := hcarried.clear hclean hclear.cells hclear.word
    refine ⟨hcells, ?_, ?_, hword, ?_, ?_⟩
    · rw [hconsumed, hclear.consumed, consumes_append, hcarried.log]
    · rw [hcompleted, hclear.completed, advances_append, hcarried.log]
    · rw [hall, hdelivered, hclear.taken, fetched_of_ne hne, fetched_of_ne (hcarried.phase ▸ hne)]
    · rw [hcarried.aside.flushers, hcarried.aside.reserved]
      exact hclear.snapshots
  · rw [hcarried.aside.flushers] at hf
    rw [hcarried.aside.flushers]
    refine (h.flushed f hf).mono ⟨[], by rw [append_nil]; exact hcarried.aside.reserved⟩ ⟨[], ?_⟩ ⟨[e], ?_⟩
    · rw [hall, append_nil]
    · rw [hcarried.log]

theorem Honest.finishing (h : Honest c s) {fifo : State} (haside : Aside s.fifo fifo)
    (hne : phase ≠ .dequeuing) (hne' : s.phase ≠ .dequeuing)
    (hloaded : ∀ r closed drained, phase = .loaded r closed drained → r ≠ .success → isTerminal r = true)
    (hgated : phase.gated = true → fifo.terminal ≠ .success) (hsame : fifo.terminal = .success → fifo = s.fifo) :
    Honest c { s with fifo := fifo, phase := phase } := by
  refine { h with
    seen := fun hp => haside.terminal (h.seen hp)
    loaded := hloaded
    gated := hgated
    fresh := fun he => absurd he hne
    clear := fun hclean => ?_
    flushed := fun f hf => ?_ }
  · obtain rfl := hsame hclean
    have hclear := h.clear hclean
    refine { hclear with taken := ?_ }
    rw [hclear.taken, fetched_of_ne hne, fetched_of_ne hne']
  · rw [haside.flushers] at hf
    rw [haside.flushers]
    exact (h.flushed f hf).mono ⟨[], by rw [append_nil]; exact haside.reserved⟩ ⟨[], (append_nil _).symm⟩
      ⟨[], (append_nil _).symm⟩

theorem Honest.hosted (h : Honest c s) (hgated : s.phase.gated = true) {a : HostAction} (hs : s.host c a = some s') :
    Honest c s' := by
  obtain ⟨fifo, hstep, rfl⟩ := map_eq_some_iff.1 hs
  have haside := hostStep_aside hstep
  have hterminal := haside.terminal (h.gated hgated)
  have hne : s.phase ≠ .dequeuing := by
    intro he
    rw [he] at hgated
    cases hgated
  exact h.finishing haside hne hne h.loaded (fun _ => hterminal) fun hclean => absurd hclean hterminal

theorem Honest.finish (h : Honest c s) (hs : s.finish c = some s') : Honest c s' := by
  have hstay : Aside s.fifo s.fifo := ⟨rfl, rfl, id⟩
  rw [Service.finish] at hs
  cases hphase : s.phase with
  | idle =>
    rw [hphase] at hs
    cases hs
    refine h.finishing hstay nofun (by rw [hphase]; exact nofun) (fun r closed drained he hne => ?_) nofun fun _ => rfl
    cases he
    exact h.final hne
  | loaded r closed drained =>
    rw [hphase] at hs
    obtain ⟨s₁, hstore, rfl⟩ := map_eq_some_iff.1 hs
    obtain ⟨fifo, rfl, haside, hset, hsame⟩ := storeTerminal_spec hstore
    have hterminal : r ≠ .success → fifo.terminal ≠ .success := fun hne => hset (h.loaded r closed drained hphase hne)
    refine h.finishing haside ?_ (by rw [hphase]; exact nofun) ?_ ?_ fun hclean => ?_
    · split_ifs <;> exact nofun
    · split_ifs <;> exact nofun
    · intro hg
      split_ifs at hg with hr hdrained
      · cases hg
      · exact haside.terminal (h.gated (by rw [hphase]; exact hg))
      · exact hterminal hr
      · exact hterminal hr
    · refine hsame fun hr => hset hr hclean
  | closing drained =>
    have hg : s.phase.gated = true := by rw [hphase]; rfl
    rw [hphase] at hs
    dsimp only at hs
    rw [Service.close] at hs
    cases hhost : s.fifo.host with
    | closed =>
      rw [hhost] at hs
      cases hs
      refine h.finishing hstay ?_ (by rw [hphase]; exact nofun) ?_ (fun _ => h.gated hg) fun _ => rfl
      · split_ifs <;> exact nofun
      · split_ifs <;> exact nofun
    | _ =>
      rw [hhost] at hs
      exact h.hosted hg hs
  | draining closed =>
    rw [hphase] at hs
    split_ifs at hs
    cases hs
    refine h.finishing hstay nofun (by rw [hphase]; exact nofun) (fun r closed' drained he hne => ?_) (fun hg => ?_) fun _ => rfl
    · cases he
      exact h.final hne
    · exact h.gated (by rw [hphase]; exact hg)
  | finalizing =>
    have hg : s.phase.gated = true := by rw [hphase]; rfl
    rw [hphase] at hs
    cases hhost : s.fifo.host with
    | finalized r =>
      rw [hhost] at hs
      cases hs
      exact h.finishing hstay nofun (by rw [hphase]; exact nofun) nofun nofun fun _ => rfl
    | _ =>
      rw [hhost] at hs
      exact h.hosted hg hs
  | _ =>
    rw [hphase] at hs
    cases hs

/-- **One step of the service.** -/
theorem Honest.step (hw : 0 < c.width) (h : Honest c s) {a : ServiceAct} (hok : Watched c s a)
    (hs : Service.step c contextId s a = some s') : Honest c s' := by
  cases a with
  | device a => exact h.device hw hok hs
  | poll stopping canTest first second =>
    rw [Service.step] at hs
    split_ifs at hs with htodo
    exact h.poll htodo hs
  | progress node reply =>
    rw [Service.step] at hs
    split_ifs at hs with hcall
    cases hs
    exact h.progress hcall.1 hcall.2 node reply
  | dequeue node reply =>
    rw [Service.step] at hs
    split_ifs at hs with hcall
    exact h.dequeue hcall.1 hcall.2 hs
  | access =>
    rw [Service.step] at hs
    cases htodo : s.todo with
    | nil =>
      rw [htodo] at hs
      cases hs
    | cons e es =>
      rw [htodo] at hs
      obtain ⟨s₁, hcarry, rfl⟩ := map_eq_some_iff.1 hs
      exact h.access htodo hcarry
  | finish =>
    rw [Service.step] at hs
    split_ifs at hs
    exact h.finish hs
  | elsewhere r =>
    cases hs
    split_ifs with hr
    · refine { h with final := fun _ => hr.1, clear := fun hclean => ?_, flushed := h.flushed }
      exact { h.clear hclean with }
    · exact h

theorem honest_start {capacity stagingSlotCount : UInt32} {generation orderingKey : UInt64} {groups : Nat → ReleaseGroup}
    {k : Kernel} (hinit : Kernel.init capacity stagingSlotCount generation orderingKey groups = .ok k)
    (buffer : Nat → UInt64) : Honest c (Service.start k buffer) where
  standing := (orderly_start hinit buffer).standing
  final := fun hne => absurd rfl hne
  seen := (orderly_start hinit buffer).seen
  loaded := nofun
  gated := nofun
  fresh := nofun
  clear := fun _ => ⟨Cells.init c, rfl, rfl, (Nat.zero_mod _).symm, rfl, fun _ hf => by rcases hf with hf | hf <;> cases hf⟩
  flushed := nofun

end Honest

/-! ## Every run -/

/-- **A flush that succeeds hides no failure**, when flushers that leave their loop on the counter find the terminal status
still a success. -/
theorem flush_hides_nothing (c : Config) (hw : 0 < c.width) {capacity stagingSlotCount : UInt32}
    {generation orderingKey : UInt64} {groups : Nat → ReleaseGroup} {k : Kernel}
    (hinit : Kernel.init capacity stagingSlotCount generation orderingKey groups = .ok k) (contextId : Int)
    (buffer : Nat → UInt64) {s : Service}
    (hr : Reach (Service.step c contextId) (Watched c) (Service.start k buffer) s) {f : Nat}
    (hf : (s.fifo.flushers f).pc = .returned .success) : Settled s (s.fifo.flushers f).upTo :=
  (hr.invariant (I := Honest c) (honest_start hinit buffer) fun _ _ _ h hok hs => h.step hw hok hs).flushed f hf

/-! ## Two runs -/

def watches (c : Config) (s : Service) : ServiceAct → Bool
  | .device (.flusher f) =>
    (s.fifo.flushers f).pc ≠ .polling || c.before s.fifo.completed (s.fifo.flushers f).snapshot ||
      (s.fifo.terminal = .success ∧ (s.fifo.flushers f).upTo ≤ s.fifo.completedCount + c.values / 2)
  | .device a => reservesApart c s.fifo a
  | _ => true

theorem watched_of_watches {c : Config} {s : Service} {a : ServiceAct} (h : watches c s a = true) : Watched c s a := by
  refine ⟨fun _ d hd => ?_, fun f hd hpolling hbefore => ?_⟩
  · rw [hd] at h
    cases d with
    | flusher f => exact apart_of_check rfl
    | _ => exact apart_of_check h
  · rw [hd, watches, hpolling, hbefore] at h
    simpa using h

/-- A thread enqueues a put, the worker takes and posts it with the answer `answer`, while another thread flushes: it is
before its load of `completed` when the worker has decided what to do. -/
def putThenFlush (answer : PostAnswer) : List ServiceAct :=
  let reply : Reply := ⟨answer, .success⟩
  let poll : ServiceAct := .poll false false (fun _ => ⟨⟨.success, false⟩, ⟨.success, false⟩, ⟨.success, none⟩⟩)
    fun _ => ⟨⟨.success, false⟩, ⟨.success, false⟩, ⟨.success, none⟩⟩
  .device (.enqueue 0 (Net.enqueueFifoPut 1 0 0 0 64 8)) :: replicate 8 (.device (.producer 0)) ++
    [poll, .progress anyNode reply] ++ replicate 6 (.dequeue anyNode reply) ++
    .device (.flush 0) :: replicate 4 (.device (.flusher 0))

def putCompletes : List ServiceAct :=
  putThenFlush ⟨.inProgress, some 3⟩ ++ replicate 3 .access ++
    [.poll false true (fun _ => ⟨⟨.success, true⟩, ⟨.success, true⟩, ⟨.success, none⟩⟩)
      fun _ => ⟨⟨.success, true⟩, ⟨.success, true⟩, ⟨.success, none⟩⟩, .access, .access, .device (.flusher 0)]

theorem flush_hides_nothing_putCompletes :
    ∃ s, Reach (Service.step fourThreads 0) (Watched fourThreads) (Service.start twoCells fun _ => 0) s ∧
      (s.fifo.flushers 0).pc = .returned .success ∧ (s.fifo.flushers 0).upTo = 1 ∧ Settled s 1 := by
  have hrun : ((exec (fun s a => if watches fourThreads s a then Service.step fourThreads 0 s a else none)
      (Service.start twoCells fun _ => 0) putCompletes).map fun s => ((s.fifo.flushers 0).pc, (s.fifo.flushers 0).upTo)) =
      some (.returned .success, 1) := by decide
  obtain ⟨s, hs, he⟩ := map_eq_some_iff.1 hrun
  obtain ⟨hpc, hupTo⟩ := Prod.mk.inj he
  have hreach : Reach (Service.step fourThreads 0) (Watched fourThreads) (Service.start twoCells fun _ => 0) s :=
    Reach.of_checked (fun _ _ => watched_of_watches) hs
  have hsettled := flush_hides_nothing fourThreads (by decide) (show Kernel.init 2 2 1 0 _ = .ok twoCells from rfl) 0 (fun _ => 0)
    hreach hpc
  rw [hupTo] at hsettled
  exact ⟨s, hreach, hpc, hupTo, hsettled⟩

/-- The adaptor refuses the put. -/
theorem flush_hides_failure :
    ¬ ∀ s, Reach (Service.step fourThreads 0) (fun _ _ => True) (Service.start twoCells fun _ => 0) s →
      ∀ f, (s.fifo.flushers f).pc = .returned .success → Settled s (s.fifo.flushers f).upTo := by
  intro h
  have hrun : ((exec (Service.step fourThreads 0) (Service.start twoCells fun _ => 0)
      (putThenFlush ⟨.remoteError, none⟩ ++ replicate 7 .access ++ [.device (.flusher 0)])).map fun s =>
        ((s.fifo.flushers 0).pc, (s.fifo.flushers 0).upTo, resultOf s.log 1)) =
      some (.returned .success, 1, some .remoteError) := by decide
  obtain ⟨s, hs, he⟩ := map_eq_some_iff.1 hrun
  simp only [Prod.mk.injEq] at he
  obtain ⟨hpc, hupTo, hresult⟩ := he
  obtain ⟨t, -, -, hdone⟩ := h s (Reach.of_exec (fun _ _ _ => trivial) hs) 0 hpc 0 (by rw [hupTo]; exact one_pos)
  rw [hresult] at hdone
  cases hdone

end FlagCX.KernelProxy
