import FlagCX.DeviceFifo.Fifo
import FlagCX.Lib.Words

/-!
# The producer gate and the terminal cleanup

* `Gate`            : the producer state is the number of producers inside and the close bit; behind a closed gate nobody is admitted.
* `gate_sound`      : runs in which no rejected producer is late; `late_producer_fails_finalize` : one that does not.
-/

namespace FlagCX.DeviceFifo
open Lib Function

/-! ## The word -/

section Word
variable {c : Config} {a : Nat}

theorem Config.values_eq (hw : 0 < c.width) : c.values = 2 * 2 ^ (c.width - 1) := by
  rw [values, ← Nat.pow_succ', Nat.succ_eq_add_one, Nat.sub_add_cancel hw]

/-- A count below the close bit, with the bit or without. -/
def Config.gateWord (c : Config) (isClosed : Bool) (a : Nat) : Nat := (if isClosed then c.closedMask else 0) + a

theorem Config.gateWord_lt (hw : 0 < c.width) (ha : a < 2 ^ (c.width - 1)) (b : Bool) : c.gateWord b a < c.values := by
  rw [gateWord, closedMask, c.values_eq hw]
  split_ifs <;> omega

theorem Config.isClosed_gateWord (ha : a < 2 ^ (c.width - 1)) (b : Bool) : c.isClosed (c.gateWord b a) = b := by
  cases b with
  | false =>
    rw [isClosed, gateWord, if_neg Bool.false_ne_true, zero_add]
    exact Nat.testBit_lt_two_pow ha
  | true =>
    rw [isClosed, gateWord, if_pos rfl, closedMask, Nat.testBit_two_pow_add_eq, Nat.testBit_lt_two_pow ha]
    rfl

theorem Config.active_gateWord (ha : a < 2 ^ (c.width - 1)) (b : Bool) : c.active (c.gateWord b a) = a := by
  rw [active, gateWord, closedMask]
  split_ifs
  · rw [Nat.add_mod_left, Nat.mod_eq_of_lt ha]
  · rw [zero_add, Nat.mod_eq_of_lt ha]

theorem Config.gateWord_close (ha : a < 2 ^ (c.width - 1)) : c.gateWord false a ||| c.closedMask = c.gateWord true a := by
  have hor := Nat.two_pow_add_eq_or_of_lt ha 1
  rw [mul_one] at hor
  rw [gateWord, gateWord, if_neg Bool.false_ne_true, if_pos rfl, zero_add, closedMask, Nat.lor_comm, hor]

theorem Config.diff_one (hw : 0 < c.width) (h : 0 < a) (ha : a < c.values) : c.diff a 1 = a - 1 := by
  have hpos := Nat.two_pow_pos (c.width - 1)
  have hone : 1 < c.values := by rw [c.values_eq hw]; omega
  have e : a + (c.values - 1) = a - 1 + c.values := by omega
  rw [diff, Nat.mod_eq_of_lt hone, e, Nat.add_mod_right, Nat.mod_eq_of_lt (by omega)]

end Word

/-! ## Who is inside -/

/-- Between the `fetchAdd` and the `fetchSub` on the producer state. -/
def ProducerPc.inside : ProducerPc → Bool
  | .rejected | .entered | .waiting | .full | .spaced | .writingFst | .writingSnd | .writingTrd | .leaving _ => true
  | _ => false

def ProducerPc.admitted : ProducerPc → Bool
  | .entered | .waiting | .full | .spaced | .writingFst | .writingSnd | .writingTrd | .leaving _ => true
  | _ => false

def Host.gateClosed : Host → Bool
  | .closing | .closed | .checked | .loaded .. | .consumedSet .. | .finalized _ => true
  | _ => false

/-- `flagcxKernelProxyCloseFifoProducerGate` has returned. -/
def Host.sealed : Host → Bool
  | .closed | .checked | .loaded .. | .consumedSet .. | .finalized _ => true
  | _ => false

/-- The number of producers between their increment and their decrement. -/
def State.inside (c : Config) (s : State) : Nat := occupied (fun x : Producer => x.pc.inside = true) c.threads s.producers

/-- What holds of the producer state and of the parties around it. -/
structure Gate (c : Config) (s : State) : Prop where
  word : s.producerState = c.gateWord s.host.gateClosed (s.inside c)
  threads : ∀ p, c.threads ≤ p → (s.producers p).pc = .idle
  empty : s.host.sealed = true → ∀ p, (s.producers p).pc.admitted = false
  loaded : ∀ n k, s.host = .loaded n k → n = s.produced ∧ k = s.reserved.length
  consumedSet : ∀ n k, s.host = .consumedSet n k →
    n = s.produced ∧ k = s.reserved.length ∧ s.consumed = s.produced ∧ s.consumedCount = s.reserved.length
  finalized : ∀ r, s.host = .finalized r → r = .success ∧ s.consumed = s.produced ∧ s.completed = s.produced ∧
    s.consumedCount = s.reserved.length ∧ s.completedCount = s.reserved.length

/-- When the finalizer loads the producer state no rejected producer is between its increment and its decrement. -/
def LateLeaves (s : State) (a : Action) : Prop :=
  a = .host .finalize → s.host = .closed → ∀ p, (s.producers p).pc ≠ .rejected

section Steps
variable {c : Config} {s s' : State} {p : Nat} {x : Producer}

theorem State.inside_le (c : Config) (s : State) : s.inside c ≤ c.threads := occupied_le ..

theorem Gate.lt_threads (h : Gate c s) (hp : (s.producers p).pc ≠ .idle) : p < c.threads := by
  by_contra hge
  exact hp (h.threads p (by omega))

section

variable (h : Gate c s) (hp : p < c.threads) (hhost : s'.host = s.host) (hproducers : s'.producers = update s.producers p x)
include h hp hhost hproducers

theorem Gate.producer_same (hstate : s'.producerState = s.producerState) (hinside : x.pc.inside = (s.producers p).pc.inside)
    (hadmitted : s.host.sealed = true → x.pc.admitted = false)
    (hwords : s.host.sealed = true → s'.produced = s.produced ∧ s'.reserved = s.reserved)
    (hcounts : s'.consumed = s.consumed ∧ s'.completed = s.completed ∧ s'.consumedCount = s.consumedCount ∧ s'.completedCount = s.completedCount) : Gate c s' := by
  obtain ⟨hconsumed, hcompleted, hcount, hcount'⟩ := hcounts
  have hcard : s'.inside c = s.inside c := by
    rw [State.inside, hproducers]
    exact occupied_update_same _ (by rw [hinside])
  refine ⟨?_, ?_, ?_, ?_, ?_, ?_⟩
  · rw [hstate, hhost, hcard, h.word]
  · intro q hq
    rw [hproducers, update_of_ne (by omega), h.threads q hq]
  · intro hsealed q
    rw [hhost] at hsealed
    rw [hproducers]
    by_cases hqp : q = p
    · rw [hqp, update_self, hadmitted hsealed]
    · rw [update_of_ne hqp, h.empty hsealed q]
  · intro n k hn
    rw [hhost] at hn
    obtain ⟨hprod, hres⟩ := hwords (by rw [hn]; rfl)
    rw [hprod, hres]
    exact h.loaded n k hn
  · intro n k hn
    rw [hhost] at hn
    obtain ⟨hprod, hres⟩ := hwords (by rw [hn]; rfl)
    rw [hprod, hres, hconsumed, hcount]
    exact h.consumedSet n k hn
  · intro r hr
    rw [hhost] at hr
    obtain ⟨hprod, hres⟩ := hwords (by rw [hr]; rfl)
    rw [hprod, hres, hconsumed, hcompleted, hcount, hcount']
    exact h.finalized r hr

theorem Gate.producer_cross (hstate : s'.producerState = c.gateWord s.host.gateClosed (s'.inside c))
    (hadmitted : s.host.sealed = true → x.pc.admitted = false)
    (hwords : s'.produced = s.produced ∧ s'.reserved = s.reserved ∧ s'.consumed = s.consumed ∧ s'.completed = s.completed ∧ s'.consumedCount = s.consumedCount ∧ s'.completedCount = s.completedCount) :
    Gate c s' := by
  obtain ⟨hprod, hres, hconsumed, hcompleted, hcount, hcount'⟩ := hwords
  refine ⟨by rw [hhost, hstate], ?_, ?_, ?_, ?_, ?_⟩
  · intro q hq
    rw [hproducers, update_of_ne (by omega), h.threads q hq]
  · intro hsealed q
    rw [hhost] at hsealed
    rw [hproducers]
    by_cases hqp : q = p
    · rw [hqp, update_self, hadmitted hsealed]
    · rw [update_of_ne hqp, h.empty hsealed q]
  · intro n k hn
    rw [hprod, hres]
    exact h.loaded n k (hhost ▸ hn)
  · intro n k hn
    rw [hprod, hres, hconsumed, hcount]
    exact h.consumedSet n k (hhost ▸ hn)
  · intro r hr
    rw [hprod, hres, hconsumed, hcompleted, hcount, hcount']
    exact h.finalized r (hhost ▸ hr)

end

theorem Gate.host_same (h : Gate c s) (hproducers : s'.producers = s.producers)
    (hstate : s'.producerState = s.producerState) (hclosed : s'.host.gateClosed = s.host.gateClosed)
    (hsealed : s'.host.sealed = s.host.sealed) (hloaded : ∀ n k, s'.host ≠ .loaded n k)
    (hset : ∀ n k, s'.host ≠ .consumedSet n k) (hfinal : ∀ r, s'.host ≠ .finalized r) : Gate c s' := by
  refine ⟨?_, ?_, ?_, fun n k hn => absurd hn (hloaded n k), fun n k hn => absurd hn (hset n k),
    fun r hr => absurd hr (hfinal r)⟩
  · rw [hstate, hclosed, State.inside, hproducers]
    exact h.word
  · rw [hproducers]
    exact h.threads
  · rw [hproducers, hsealed]
    exact h.empty

end Steps

section Invariant
variable {c : Config} {s s' : State}

theorem Gate.init (c : Config) : Gate c State.init := by
  have hzero : State.init.inside c = 0 := by
    rw [State.inside, occupied]
    simp [State.init, ProducerPc.inside]
  refine ⟨?_, fun _ _ => rfl, by rintro ⟨⟩, by rintro _ _ ⟨⟩, by rintro _ _ ⟨⟩, by rintro _ ⟨⟩⟩
  rw [hzero]
  rfl

theorem Gate.inside_lt (hthreads : c.threads < 2 ^ (c.width - 1)) (s : State) : s.inside c < 2 ^ (c.width - 1) :=
  lt_of_le_of_lt (s.inside_le c) hthreads

theorem Gate.isClosed (h : Gate c s) (hthreads : c.threads < 2 ^ (c.width - 1)) :
    c.isClosed s.producerState = s.host.gateClosed := by
  rw [h.word, Config.isClosed_gateWord (Gate.inside_lt hthreads s)]

theorem Gate.active (h : Gate c s) (hthreads : c.threads < 2 ^ (c.width - 1)) : c.active s.producerState = s.inside c := by
  rw [h.word, Config.active_gateWord (Gate.inside_lt hthreads s)]

theorem Host.gateClosed_of_sealed {host : Host} (h : host.sealed = true) : host.gateClosed = true := by
  cases host <;> first | rfl | cases h

theorem Gate.enqueue (h : Gate c s) {p : Nat} {t : Trigger} (hs : s.step c (.enqueue p t) = some s') : Gate c s' := by
  rw [State.step] at hs
  split_ifs at hs with hcall
  cases hs
  obtain ⟨hp, hfree⟩ := hcall
  refine h.producer_same hp rfl rfl rfl ?_ (fun _ => rfl) (fun _ => ⟨rfl, rfl⟩) ⟨rfl, rfl, rfl, rfl⟩
  cases hpc : (s.producers p).pc <;> rw [hpc] at hfree <;> first | rfl | cases hfree

theorem Gate.producer (h : Gate c s) (hw : 0 < c.width) (hthreads : c.threads < 2 ^ (c.width - 1)) {p : Nat}
    (hs : s.producerStep c p = some s') : Gate c s' := by
  have hadmitted : ∀ pc, (s.producers p).pc = pc → pc.admitted = true → s.host.sealed = true → False := by
    intro pc hpc hin hsealed
    have := h.empty hsealed p
    rw [hpc, hin] at this
    cases this
  have hp : (s.producers p).pc ≠ .idle := by
    intro hidle
    rw [State.producerStep] at hs
    rw [hidle] at hs
    cases hs
  replace hp := h.lt_threads hp
  rw [State.producerStep] at hs
  -- a step that leaves the producer where it is relative to the gate
  have same : ∀ {pc pc' : ProducerPc} {t : State} {x : Producer}, (s.producers p).pc = pc → pc.admitted = true →
      x.pc = pc' → pc'.inside = true → t.host = s.host → t.producers = update s.producers p x →
      t.producerState = s.producerState → t.consumed = s.consumed ∧ t.completed = s.completed ∧
        t.consumedCount = s.consumedCount ∧ t.completedCount = s.completedCount → Gate c t := by
    intro pc pc' t x hpc hin hx hin' hhost hproducers hstate hcounts
    have hinside : pc.inside = true := by cases pc <;> first | rfl | cases hin
    exact h.producer_same hp hhost hproducers hstate (by rw [hx, hpc, hin', hinside])
      (fun hsealed => (hadmitted pc hpc hin hsealed).elim) (fun hsealed => (hadmitted pc hpc hin hsealed).elim) hcounts
  -- a step out of the gate
  have out : ∀ {x : Producer}, (s.producers p).pc.inside = true → x.pc.inside = false → x.pc.admitted = false →
      Gate c ((s.depart c).setProducer p x) := by
    intro x hin hout hadm
    have hcard : ((s.depart c).setProducer p x).inside c + 1 = s.inside c :=
      occupied_update_free _ hp hin (by rw [hout]; exact Bool.false_ne_true)
    refine h.producer_cross hp rfl rfl ?_ (fun _ => hadm) ⟨rfl, rfl, rfl, rfl, rfl, rfl⟩
    have hlt := Config.gateWord_lt hw (Gate.inside_lt hthreads s) s.host.gateClosed
    have hpos : 0 < c.gateWord s.host.gateClosed (s.inside c) := by rw [Config.gateWord]; omega
    show c.diff s.producerState 1 = _
    rw [h.word, Config.diff_one hw hpos hlt, Config.gateWord, Config.gateWord]
    omega
  cases hpc : (s.producers p).pc with
  | idle => rw [hpc] at hs; cases hs
  | returned => rw [hpc] at hs; cases hs
  | entering =>
    rw [hpc] at hs
    cases hs
    rw [h.isClosed hthreads]
    have hcard : ((s.arrive c).setProducer p { s.producers p with
        pc := if s.host.gateClosed = true then .rejected else .entered }).inside c = s.inside c + 1 := by
      have hout : ¬ (s.producers p).pc.inside = true := by rw [hpc]; exact Bool.false_ne_true
      refine occupied_update_fill _ hp hout ?_
      split_ifs <;> rfl
    refine h.producer_cross hp rfl rfl ?_ ?_ ⟨rfl, rfl, rfl, rfl, rfl, rfl⟩
    · have hle := State.inside_le c ((s.arrive c).setProducer p { s.producers p with
        pc := if s.host.gateClosed = true then .rejected else .entered })
      have hlt := Config.gateWord_lt hw (a := s.inside c + 1) (by omega) s.host.gateClosed
      rw [hcard]
      show (s.producerState + 1) % c.values = _
      rw [h.word, Config.gateWord] at *
      exact Nat.mod_eq_of_lt hlt
    · intro hsealed
      rw [if_pos (Host.gateClosed_of_sealed hsealed)]
      rfl
  | rejected | leaving r =>
    rw [hpc] at hs
    cases hs
    exact out (by rw [hpc]; rfl) rfl rfl
  | refused =>
    rw [hpc] at hs
    cases hs
    exact h.producer_same hp rfl rfl rfl (by rw [hpc]; rfl) (fun _ => rfl) (fun _ => ⟨rfl, rfl⟩) ⟨rfl, rfl, rfl, rfl⟩
  | entered | writingFst | writingSnd | writingTrd =>
    rw [hpc] at hs
    cases hs
    exact same hpc rfl rfl rfl rfl rfl rfl ⟨rfl, rfl, rfl, rfl⟩
  | waiting | full | spaced =>
    rw [hpc] at hs
    cases hs
    exact same hpc rfl rfl (by split_ifs <;> rfl) rfl rfl rfl ⟨rfl, rfl, rfl, rfl⟩

theorem Gate.setFlusher (h : Gate c s) (f : Nat) (x : Flusher) : Gate c (s.setFlusher f x) :=
  ⟨h.word, h.threads, h.empty, h.loaded, h.consumedSet, h.finalized⟩

theorem Gate.flusher (h : Gate c s) {f : Nat} (hs : s.flusherStep c f = some s') : Gate c s' := by
  rw [State.flusherStep] at hs
  split at hs <;> cases hs <;> exact h.setFlusher f _

theorem inside_eq_zero (h : ∀ p, (s.producers p).pc.admitted = false ∧ (s.producers p).pc ≠ .rejected) : s.inside c = 0 := by
  rw [State.inside, occupied, Finset.card_eq_zero, Finset.filter_eq_empty_iff]
  intro p _
  obtain ⟨hadm, hrej⟩ := h p
  cases hpc : (s.producers p).pc <;> rw [hpc] at hadm hrej <;>
    first | exact absurd rfl hrej | exact Bool.false_ne_true | cases hadm

theorem Gate.dequeue (h : Gate c s) (hs : s.dequeueStep c = some s') : Gate c s' := by
  rw [State.dequeueStep] at hs
  cases hhost : s.host <;> rw [hhost] at hs <;> cases hs
  · split_ifs
    · exact h
    · exact h.host_same rfl rfl (by rw [hhost]; rfl) (by rw [hhost]; rfl) nofun nofun nofun
  · refine h.host_same rfl rfl ?_ ?_ ?_ ?_ ?_
    · rw [hhost]; dsimp only; split_ifs <;> rfl
    · rw [hhost]; dsimp only; split_ifs <;> rfl
    · intro n k; dsimp only; split_ifs <;> exact nofun
    · intro n k; dsimp only; split_ifs <;> exact nofun
    · intro r; dsimp only; split_ifs <;> exact nofun
  · exact h.host_same rfl rfl (by rw [hhost]; rfl) (by rw [hhost]; rfl) nofun nofun nofun
  · exact h.host_same rfl rfl (by rw [hhost]; rfl) (by rw [hhost]; rfl) nofun nofun nofun
  · exact h.host_same rfl rfl (by rw [hhost]; rfl) (by rw [hhost]; rfl) nofun nofun nofun

theorem Gate.finalize (h : Gate c s) (hthreads : c.threads < 2 ^ (c.width - 1))
    (hlate : s.host = .closed → ∀ p, (s.producers p).pc ≠ .rejected) (hs : s.finalizeStep c = some s') : Gate c s' := by
  rw [State.finalizeStep] at hs
  cases hhost : s.host <;> rw [hhost] at hs <;> cases hs
  case closed =>
    have hzero : s.inside c = 0 := inside_eq_zero fun p => ⟨h.empty (by rw [hhost]; rfl) p, hlate hhost p⟩
    have hclosed : c.isClosed s.producerState = true := by rw [h.isClosed hthreads, hhost]; rfl
    have hactive : c.active s.producerState = 0 := by rw [h.active hthreads, hzero]
    rw [if_pos ⟨hclosed, hactive⟩]
    exact h.host_same rfl rfl (by rw [hhost]; rfl) (by rw [hhost]; rfl) nofun nofun nofun
  case checked =>
    refine ⟨?_, h.threads, fun _ => h.empty (by rw [hhost]; rfl), ?_, nofun, nofun⟩
    · have hword := h.word
      rw [hhost] at hword
      exact hword
    · rintro n k ⟨⟩
      exact ⟨rfl, rfl⟩
  case loaded n k =>
    obtain ⟨rfl, rfl⟩ := h.loaded n k hhost
    refine ⟨?_, h.threads, fun _ => h.empty (by rw [hhost]; rfl), nofun, ?_, nofun⟩
    · have hword := h.word
      rw [hhost] at hword
      exact hword
    · rintro n k ⟨⟩
      exact ⟨rfl, rfl, rfl, rfl⟩
  case consumedSet n k =>
    obtain ⟨rfl, rfl, hconsumed, hcount⟩ := h.consumedSet n k hhost
    refine ⟨?_, h.threads, fun _ => h.empty (by rw [hhost]; rfl), nofun, nofun, ?_⟩
    · have hword := h.word
      rw [hhost] at hword
      exact hword
    · rintro r ⟨⟩
      exact ⟨rfl, hconsumed, rfl, hcount, rfl⟩

theorem Gate.host (h : Gate c s) (hthreads : c.threads < 2 ^ (c.width - 1)) {a : HostAction}
    (hlate : LateLeaves s (.host a)) (hs : s.hostStep c a = some s') : Gate c s' := by
  have hworking : s.host.working = true → (∀ n k, s.host ≠ .loaded n k) ∧ (∀ n k, s.host ≠ .consumedSet n k) ∧
      ∀ r, s.host ≠ .finalized r := by
    intro hw
    refine ⟨?_, ?_, ?_⟩ <;> intros <;> intro he <;> rw [he] at hw <;> cases hw
  cases a with
  | dequeue => exact h.dequeue hs
  | consume =>
    rw [State.hostStep] at hs
    split at hs
    · rename_i hhost
      cases hs
      exact h.host_same rfl rfl (by rw [hhost]; rfl) (by rw [hhost]; rfl) nofun nofun nofun
    · cases hs
  | advance k =>
    rw [State.hostStep] at hs
    split_ifs at hs with hw
    cases hs
    obtain ⟨h1, h2, h3⟩ := hworking hw
    exact h.host_same rfl rfl rfl rfl h1 h2 h3
  | storeTerminal r =>
    rw [State.hostStep] at hs
    split_ifs at hs with hw
    cases hs
    obtain ⟨h1, h2, h3⟩ := hworking hw.1
    exact h.host_same rfl rfl rfl rfl h1 h2 h3
  | close =>
    rw [State.hostStep] at hs
    split_ifs at hs with hloop
    cases hs
    have hopen : s.host.gateClosed = false := by cases hhost : s.host <;> rw [hhost] at hloop <;> first | rfl | cases hloop
    refine ⟨?_, h.threads, nofun, nofun, nofun, nofun⟩
    have hword := h.word
    rw [hopen] at hword
    rw [hword, Config.gateWord_close (Gate.inside_lt hthreads s)]
    rfl
  | await =>
    rw [State.hostStep] at hs
    split at hs
    · rename_i hhost
      cases hs
      have hword := h.word
      rw [hhost] at hword
      split_ifs with hactive
      · rw [h.active hthreads] at hactive
        refine ⟨hword, h.threads, fun _ p => ?_, nofun, nofun, nofun⟩
        by_cases hp : p < c.threads
        · have hout := occupied_eq_zero _ hactive hp
          cases hpc : (s.producers p).pc <;> rw [hpc] at hout <;> first | rfl | exact absurd rfl hout
        · rw [show (s.producers p).pc = .idle from h.threads p (by omega)]
          rfl
      · exact ⟨hword, h.threads, nofun, nofun, nofun, nofun⟩
    · cases hs
  | finalize => exact h.finalize hthreads (hlate rfl) hs

theorem Gate.step (h : Gate c s) (hw : 0 < c.width) (hthreads : c.threads < 2 ^ (c.width - 1)) {a : Action}
    (hlate : LateLeaves s a) (hs : s.step c a = some s') : Gate c s' := by
  cases a with
  | enqueue p t => exact h.enqueue hs
  | producer p => exact h.producer hw hthreads hs
  | flush f =>
    rw [State.step] at hs
    split_ifs at hs
    cases hs
    exact h.setFlusher f _
  | flusher f => exact h.flusher hs
  | host a => exact h.host hthreads hlate hs

theorem Gate.of_reach (hw : 0 < c.width) (hthreads : c.threads < 2 ^ (c.width - 1))
    (h : Reach (State.step c) LateLeaves State.init s) : Gate c s :=
  h.invariant (Gate.init c) fun _ _ _ hg hlate hs => hg.step hw hthreads hlate hs

/-- Nothing is reserved or written once the gate has been closed, and the end is final. -/
structure Still (s s' : State) : Prop where
  reserved : s'.reserved = s.reserved
  published : s'.published = s.published
  slots : s'.slots = s.slots
  finalized : ∀ r, s.host = .finalized r → s'.host = .finalized r

theorem State.hostStep_sealed (hsealed : s.host.sealed = true) {a : HostAction} (hs : s.hostStep c a = some s') :
    Still s s' ∧ s'.host.sealed = true := by
  cases a with
  | dequeue =>
    rw [hostStep, dequeueStep] at hs
    cases hhost : s.host <;> rw [hhost] at hs hsealed <;>
      first | exact absurd hsealed Bool.false_ne_true | cases hs
  | consume | await =>
    rw [hostStep] at hs
    cases hhost : s.host <;> rw [hhost] at hs hsealed <;>
      first | exact absurd hsealed Bool.false_ne_true | cases hs
  | advance k | storeTerminal r =>
    rw [hostStep] at hs
    split_ifs at hs
    cases hs
    exact ⟨⟨rfl, rfl, rfl, fun _ hr => hr⟩, hsealed⟩
  | close =>
    rw [hostStep] at hs
    split_ifs at hs with hloop
    cases hhost : s.host <;> rw [hhost] at hloop hsealed <;>
      first | exact absurd hsealed Bool.false_ne_true | cases hloop
  | finalize =>
    rw [hostStep, finalizeStep] at hs
    cases hhost : s.host <;> rw [hhost] at hs <;> cases hs
    · refine ⟨⟨rfl, rfl, rfl, fun r hr => by rw [hhost] at hr; cases hr⟩, ?_⟩
      split_ifs <;> rfl
    · exact ⟨⟨rfl, rfl, rfl, fun r hr => by rw [hhost] at hr; cases hr⟩, rfl⟩
    · exact ⟨⟨rfl, rfl, rfl, fun r hr => by rw [hhost] at hr; cases hr⟩, rfl⟩
    · exact ⟨⟨rfl, rfl, rfl, fun r hr => by rw [hhost] at hr; cases hr⟩, rfl⟩

theorem Gate.still (h : Gate c s) (hsealed : s.host.sealed = true) {a : Action} (hs : s.step c a = some s') :
    Still s s' ∧ s'.host.sealed = true := by
  cases a with
  | enqueue p t | flush f =>
    rw [State.step] at hs
    split_ifs at hs
    cases hs
    exact ⟨⟨rfl, rfl, rfl, fun _ hr => hr⟩, hsealed⟩
  | producer p =>
    have hadm := h.empty hsealed p
    rw [State.step, State.producerStep] at hs
    cases hpc : (s.producers p).pc <;> rw [hpc] at hs hadm <;> cases hadm <;> cases hs <;>
      exact ⟨⟨rfl, rfl, rfl, fun _ hr => hr⟩, hsealed⟩
  | flusher f =>
    rw [State.step, State.flusherStep] at hs
    split at hs <;> cases hs <;> exact ⟨⟨rfl, rfl, rfl, fun _ hr => hr⟩, hsealed⟩
  | host a => exact State.hostStep_sealed hsealed hs

/-- What every reached state shows. -/
structure GateSound (c : Config) (s : State) : Prop where
  /-- the active count is the number of producers between their increment and their decrement -/
  active : c.active s.producerState = s.inside c
  /-- which never reaches the close bit -/
  closeBit : c.isClosed s.producerState = s.host.gateClosed
  /-- a producer that finds the gate closed leaves with an error, without a reservation or a store -/
  rejected : ∀ p s', s.producerStep c p = some s' →
    (s.producers p).pc = .entering ∧ s.host.gateClosed = true ∨ (s.producers p).pc = .rejected ∨
      (s.producers p).pc = .refused →
    Still s s' ∧ ((s'.producers p).pc = .rejected ∨ (s'.producers p).pc = .refused ∨
      ∃ r, r ≠ .success ∧ (s'.producers p).pc = .returned r)
  /-- the finalizer succeeds and leaves the three counters equal -/
  finalized : ∀ r, s.host = .finalized r → r = .success ∧ s.consumed = s.produced ∧ s.completed = s.produced

theorem Gate.sound (h : Gate c s) (hthreads : c.threads < 2 ^ (c.width - 1)) : GateSound c s := by
  refine ⟨h.active hthreads, h.isClosed hthreads, ?_, fun r hr => ?_⟩
  · intro p s' hs hpc
    rw [State.producerStep] at hs
    rcases hpc with ⟨hpc, hclosed⟩ | hpc | hpc
    · rw [hpc] at hs
      cases hs
      refine ⟨⟨rfl, rfl, rfl, fun _ hr => hr⟩, .inl ?_⟩
      rw [State.setProducer_self, h.isClosed hthreads, hclosed]
      rfl
    · rw [hpc] at hs
      cases hs
      exact ⟨⟨rfl, rfl, rfl, fun _ hr => hr⟩, .inr (.inl (by rw [State.setProducer_self]))⟩
    · rw [hpc] at hs
      cases hs
      refine ⟨⟨rfl, rfl, rfl, fun _ hr => hr⟩, .inr (.inr ⟨_, ?_, by rw [State.setProducer_self]⟩)⟩
      split_ifs with hterminal
      · exact nofun
      · exact hterminal
  · obtain ⟨hr, hconsumed, hcompleted, -⟩ := h.finalized r hr
    exact ⟨hr, hconsumed, hcompleted⟩

/-- **Producer gate and cleanup**, with fewer producers than the close bit, in every run in which no rejected producer is
between its two accesses when the finalizer loads the producer state. -/
theorem gate_sound (c : Config) (hw : 0 < c.width) (hthreads : c.threads < 2 ^ (c.width - 1)) {s : State}
    (h : Reach (State.step c) LateLeaves State.init s) :
    GateSound c s ∧ ∀ s', Reach (State.step c) LateLeaves s s' → s.host.sealed = true → Still s s' ∧ GateSound c s' := by
  have hgate := Gate.of_reach hw hthreads h
  refine ⟨hgate.sound hthreads, fun s' h' hsealed => ?_⟩
  have hinv : Gate c s' ∧ s'.host.sealed = true ∧ Still s s' := by
    refine h'.invariant (I := fun x => Gate c x ∧ x.host.sealed = true ∧ Still s x)
      ⟨hgate, hsealed, rfl, rfl, rfl, fun _ hr => hr⟩ ?_
    rintro t t' a ⟨ht, hsealed, hstill⟩ hlate hs
    obtain ⟨hstep, hsealed'⟩ := ht.still hsealed hs
    refine ⟨ht.step hw hthreads hlate hs, hsealed', ?_, ?_, ?_, fun r hr => hstep.finalized r (hstill.finalized r hr)⟩
    · rw [hstep.reserved, hstill.reserved]
    · rw [hstep.published, hstill.published]
    · rw [hstep.slots, hstill.slots]
  exact ⟨hinv.2.2, hinv.1.sound hthreads⟩

end Invariant

/-! ## Two runs -/

def fourThreads : Config := ⟨32, 128, 4⟩

def enqueueThenClose : List Action :=
  .enqueue 0 ⟨1, 2, 3⟩ :: List.replicate 8 (.producer 0) ++ List.replicate 5 (.host .dequeue) ++
    [.host .consume, .host .close, .host .await]

theorem gate_sound_fourThreads : ∃ s, exec (State.step fourThreads) State.init enqueueThenClose = some s ∧
    s.delivered = [⟨1, 2, 3⟩] ∧ s.host = .closed ∧ GateSound fourThreads s := by
  refine ⟨_, rfl, rfl, rfl, (gate_sound fourThreads (by decide) (by decide) ?_).1⟩
  refine Reach.of_exec (fun s a ha hfinal => ?_) (show exec _ _ enqueueThenClose = some _ from rfl)
  subst hfinal
  exact absurd ha (by decide)

/-- A thread that arrives after the close is between its two accesses when the finalizer looks. -/
def lateArrival : List Action := [.host .close, .host .await, .enqueue 0 ⟨1, 2, 3⟩, .producer 0, .host .finalize]

theorem late_producer_fails_finalize :
    ¬ ∀ s, Reach (State.step fourThreads) (fun _ _ => True) State.init s → GateSound fourThreads s := by
  intro h
  have hrun : ∃ s, exec (State.step fourThreads) State.init lateArrival = some s ∧ s.host = .finalized .invalidUsage :=
    ⟨_, rfl, rfl⟩
  obtain ⟨s, hexec, hhost⟩ := hrun
  have hsound := h s (Reach.of_exec (fun _ _ _ => trivial) hexec)
  cases (hsound.finalized _ hhost).1

end FlagCX.DeviceFifo
