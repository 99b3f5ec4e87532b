import FlagCX.Net.Scoreboard

/-!
# Submission tracking of a collective operation (`coll_proxy_transport.cc`)

The transport state of one proxy operation: the next sequence to submit, the contexts of the sequences in flight and a
scoreboard that retires them in order.

* `transportInit`, `trackNext`, `cancel`, `complete` : the calls.
* `Flight t base lo hi fin` : the sequences `base + lo, …, base + hi - 1` are in flight, and `fin` tells which of them
  have completed.

No operation here belongs to a release group. A value of `CollTransport` is an initialized transport, and the lane mask
that goes with a context is left out: nothing here reads it.
-/

namespace FlagCX.Net
open Lib Function

def collProxyMaxSteps : UInt32 := 16

def submitData : UInt32 := 1

/-- `flagcxCollProxyTransport`. The entries are those of the scoreboard. -/
structure CollTransport where
  tracker : Tracker
  contexts : Nat → SubmitContext
  orderingKey : UInt64
  generation : UInt64
  nextSubmit : UInt64
  submitFlags : UInt32
  capacity : UInt32

namespace CollTransport

def transportInit (capacity : UInt32) (generation orderingKey : UInt64) (submitFlags : UInt32)
    (groups : Nat → ReleaseGroup) : Except Result CollTransport :=
  if capacity = 0 ∨ collProxyMaxSteps < capacity then .error .invalidArgument
  else do
    let scoreboard ← CompletionScoreboard.init capacity generation 0
    return {
      tracker := ⟨scoreboard, groups⟩, contexts := fun _ => ⟨0, 0, 0, 0, 0⟩, orderingKey := orderingKey,
      generation := generation, nextSubmit := 0, submitFlags := submitFlags ||| submitData, capacity := capacity }

def context (t : CollTransport) (sequence : UInt64) : SubmitContext :=
  ⟨t.orderingKey, 0, t.generation, sequence, t.submitFlags⟩

/-- `flagcxCollProxyTrackNext`; on success the context is `*context`. -/
def trackNext (t : CollTransport) : Result × CollTransport × SubmitContext :=
  let candidate := t.context t.nextSubmit
  let out := trackSubmit t.tracker candidate none
  if out.1 ≠ .success then (out.1, { t with tracker := out.2 }, candidate)
  else (.success, { t with
    tracker := out.2
    contexts := update t.contexts (t.nextSubmit.toNat % t.capacity.toNat) candidate
    nextSubmit := t.nextSubmit + 1 }, candidate)

def cancel (t : CollTransport) (context : SubmitContext) : Result × CollTransport :=
  if t.nextSubmit = 0 ∨ context.sequence + 1 ≠ t.nextSubmit then (.invalidArgument, t)
  else
    let out := trackCancel t.tracker context
    if out.1 ≠ .success then (out.1, { t with tracker := out.2 })
    else (.success, { t with tracker := out.2, nextSubmit := t.nextSubmit - 1 })

/-- `flagcxCollProxyComplete`; the second component is `*advanced`. -/
def complete (t : CollTransport) (context : SubmitContext) (result : Result) : Result × Nat × CollTransport :=
  let out := trackCompletion t.tracker context result
  (out.1, out.2.1, { t with tracker := out.2.2 })

end CollTransport

/-! ## The scoreboard during a flight -/

/-- The sequences `base + lo, …, base + hi - 1` are in flight with the contexts `ctx`; those in `fin` have completed. -/
structure Flying (sb : CompletionScoreboard) (ctx : UInt64 → SubmitContext) (base lo hi : Nat) (fin : Nat → Bool) :
    Prop where
  capacity_pos : 0 < sb.capacity.toNat
  next : sb.nextSequence.toNat = base + lo
  le : lo ≤ hi
  room : hi ≤ lo + sb.capacity.toNat
  small : base + hi < 2 ^ 64
  inFlight : sb.inFlight = hi - lo
  sequence : ∀ q, (ctx q).sequence = q
  generation : ∀ q, (ctx q).generation = sb.generation
  entry : ∀ j, lo ≤ j → j < hi → sb.entries ((base + j) % sb.capacity.toNat) =
    ⟨ctx (.ofNat (base + j)), none, .success, if fin j then .complete else .pending⟩
  free : ∀ j, hi ≤ j → j < lo + sb.capacity.toNat → (sb.entries ((base + j) % sb.capacity.toNat)).state = .free

section
variable {sb : CompletionScoreboard} {ctx : UInt64 → SubmitContext} {base lo hi j : Nat} {fin : Nat → Bool}

theorem toNat_word {n : Nat} (h : n < 2 ^ 64) : (UInt64.ofNat n).toNat = n := UInt64.toNat_ofNat_of_lt' h

namespace Flying

section

variable (h : Flying sb ctx base lo hi fin)
include h

theorem toNat_seq (hj : j < hi) : (UInt64.ofNat (base + j)).toNat = base + j :=
  toNat_word (lt_trans (Nat.add_lt_add_left hj base) h.small)

theorem slot_word (hj : j < hi) : sb.slot (.ofNat (base + j)) = (base + j) % sb.capacity.toNat := by
  rw [CompletionScoreboard.slot, h.toNat_seq hj]

theorem slot_next : sb.slot sb.nextSequence = (base + lo) % sb.capacity.toNat := by rw [CompletionScoreboard.slot, h.next]

end

theorem slot_ne {c i j : Nat} (hi : lo ≤ i) (hi' : i < lo + c) (hj : lo ≤ j) (hj' : j < lo + c) (hne : i ≠ j) :
    (base + i) % c ≠ (base + j) % c := by
  intro he
  have := mod_inj_window (n := base + lo) (by omega) (by omega) (by omega) (by omega) he
  omega

theorem namesPending (h : Flying sb ctx base lo hi fin) (hlo : lo ≤ j) (hhi : j < hi) (hf : fin j = false) :
    namesPending sb (ctx (.ofNat (base + j))) := by
  have hseq := h.toNat_seq hhi
  have hnext := h.next
  have hroom := h.room
  have hle : sb.nextSequence ≤ UInt64.ofNat (base + j) := by
    rw [UInt64.le_iff_toNat_le, hseq, hnext]
    omega
  have hentry : sb.entryAt (.ofNat (base + j)) = ⟨ctx (.ofNat (base + j)), none, .success, .pending⟩ := by
    rw [CompletionScoreboard.entryAt, h.slot_word hhi, h.entry j hlo hhi, hf]
    rfl
  refine ⟨?_, h.generation _, ?_, ?_, ?_, ?_⟩
  · intro hz
    have := h.capacity_pos
    rw [hz] at this
    exact absurd this (by decide)
  · rwa [h.sequence]
  · rw [h.sequence, UInt64.toNat_sub_of_le _ _ hle, hseq, hnext]
    omega
  · rw [h.sequence, hentry]
  · rw [h.sequence, hentry]
    simp [submitContextMatches]

theorem entryAt_context (h : Flying sb ctx base lo hi fin) (hlo : lo ≤ j) (hhi : j < hi) :
    sb.entryAt (ctx (.ofNat (base + j))).sequence =
      ⟨ctx (.ofNat (base + j)), none, .success, if fin j then .complete else .pending⟩ := by
  rw [h.sequence, CompletionScoreboard.entryAt, h.slot_word hhi, h.entry j hlo hhi]

/-! ### Submitting and cancelling -/

theorem submitEntry (h : Flying sb ctx base lo hi fin) (hroom : hi < lo + sb.capacity.toNat)
    (hsmall : base + hi + 1 < 2 ^ 64) (hf : fin hi = false) :
    Flying (sb.submitEntry (ctx (.ofNat (base + hi))) none) ctx base lo (hi + 1) fin := by
  have hslot : sb.slot (ctx (.ofNat (base + hi))).sequence = (base + hi) % sb.capacity.toNat := by
    rw [h.sequence, CompletionScoreboard.slot, toNat_word (by omega)]
  refine
    { capacity_pos := h.capacity_pos, next := h.next, le := Nat.le_succ_of_le h.le, room := hroom, small := hsmall,
      inFlight := ?_, sequence := h.sequence, generation := h.generation, entry := ?_, free := ?_ }
  · show sb.inFlight + 1 = hi + 1 - lo
    have := h.inFlight
    have := h.le
    omega
  · intro j hlo hhi
    show update sb.entries (sb.slot (ctx _).sequence) _ ((base + j) % sb.capacity.toNat) = _
    rw [hslot]
    rcases Nat.lt_succ_iff_lt_or_eq.1 hhi with hj | rfl
    · rw [update_of_ne (slot_ne hlo (by omega) h.le hroom (ne_of_lt hj)), h.entry j hlo hj]
    · rw [update_self, hf]
      rfl
  · intro j hhi hj
    have hj' : j < lo + sb.capacity.toNat := hj
    show (update sb.entries (sb.slot (ctx _).sequence) _ ((base + j) % sb.capacity.toNat)).state = _
    rw [hslot, update_of_ne (slot_ne (by have := h.le; omega) hj' h.le hroom (by omega))]
    exact h.free j (by omega) hj'

theorem dropLast (h : Flying sb ctx base lo (hi + 1) fin) (hle : lo ≤ hi) :
    Flying (sb.dropEntry (ctx (.ofNat (base + hi))).sequence) ctx base lo hi fin := by
  have hroom := h.room
  have hslot : sb.slot (ctx (.ofNat (base + hi))).sequence = (base + hi) % sb.capacity.toNat := by
    rw [h.sequence, h.slot_word (Nat.lt_succ_self hi)]
  refine
    { capacity_pos := h.capacity_pos, next := h.next, le := hle, room := Nat.le_of_succ_le hroom,
      small := Nat.lt_of_succ_lt h.small, inFlight := ?_, sequence := h.sequence, generation := h.generation,
      entry := ?_, free := ?_ }
  · show sb.inFlight - 1 = hi - lo
    have := h.inFlight
    omega
  · intro j hlo hhi
    show update sb.entries (sb.slot (ctx _).sequence) _ ((base + j) % sb.capacity.toNat) = _
    rw [hslot, update_of_ne (slot_ne hlo (by omega) hle (by omega) (ne_of_lt hhi)),
      h.entry j hlo (by omega)]
  · intro j hhi hj
    have hj' : j < lo + sb.capacity.toNat := hj
    show (update sb.entries (sb.slot (ctx _).sequence) _ ((base + j) % sb.capacity.toNat)).state = _
    rw [hslot]
    by_cases he : j = hi
    · subst he
      rw [update_self]
      rfl
    · rw [update_of_ne (slot_ne (by omega) hj' hle (by omega) he)]
      exact h.free j (by omega) hj'

/-! ### Completing and retiring -/

section

variable (h : Flying sb ctx base lo hi fin)
include h

theorem completeEntry (hlo : lo ≤ j) (hhi : j < hi) :
    Flying (sb.completeEntry (ctx (.ofNat (base + j))).sequence .success) ctx base lo hi (update fin j true) := by
  have hroom := h.room
  have hslot : sb.slot (ctx (.ofNat (base + j))).sequence = (base + j) % sb.capacity.toNat := by
    rw [h.sequence, h.slot_word hhi]
  refine
    { capacity_pos := h.capacity_pos, next := h.next, le := h.le, room := h.room, small := h.small,
      inFlight := h.inFlight, sequence := h.sequence, generation := h.generation, entry := ?_, free := ?_ }
  · intro i hi₀ hi₁
    show update sb.entries (sb.slot (ctx _).sequence) _ ((base + i) % sb.capacity.toNat) = _
    rw [hslot]
    by_cases he : i = j
    · subst he
      rw [update_self, h.entryAt_context hlo hhi, update_self]
      rfl
    · rw [update_of_ne (slot_ne hi₀ (by omega) hlo (by omega) he), update_of_ne he,
        h.entry i hi₀ hi₁]
  · intro i hi₀ hi₁
    have hi₁' : i < lo + sb.capacity.toNat := hi₁
    show (update sb.entries (sb.slot (ctx _).sequence) _ ((base + i) % sb.capacity.toNat)).state = _
    rw [hslot, update_of_ne (slot_ne (by omega) hi₁' hlo (by omega) (by omega))]
    exact h.free i hi₀ hi₁'

theorem headComplete_iff (hlt : lo < hi) : sb.headComplete ↔ fin lo = true := by
  have hword : UInt64.ofNat (base + lo) = sb.nextSequence := by rw [← UInt64.toNat_inj, h.toNat_seq hlt, h.next]
  have hentry : sb.entryAt sb.nextSequence =
      ⟨ctx sb.nextSequence, none, .success, if fin lo then .complete else .pending⟩ := by
    rw [CompletionScoreboard.entryAt, h.slot_next, h.entry lo le_rfl hlt, hword]
  rw [CompletionScoreboard.headComplete, hentry]
  simp only [h.generation, h.sequence, and_true]
  cases fin lo <;> simp

theorem retireHead (hlt : lo < hi) : Flying sb.retireHead ctx base (lo + 1) hi fin := by
  have hroom := h.room
  have hsmall := h.small
  have hnext := h.next
  refine
    { capacity_pos := h.capacity_pos, next := ?_, le := hlt, room := ?_, small := hsmall, inFlight := ?_,
      sequence := h.sequence, generation := h.generation, entry := ?_, free := ?_ }
  · show (sb.nextSequence + 1).toNat = base + (lo + 1)
    rw [UInt64.toNat_add, hnext]
    exact Nat.mod_eq_of_lt (by show base + lo + 1 < 2 ^ 64; omega)
  · show hi ≤ lo + 1 + sb.capacity.toNat
    omega
  · show sb.inFlight - 1 = hi - (lo + 1)
    have := h.inFlight
    omega
  · intro j hlo hhi
    show update sb.entries (sb.slot sb.nextSequence) _ ((base + j) % sb.capacity.toNat) = _
    rw [h.slot_next, update_of_ne (slot_ne (by omega) (by omega) le_rfl (by omega) (by omega)),
      h.entry j (by omega) hhi]
  · intro j hhi hj
    have hj' : j < lo + 1 + sb.capacity.toNat := hj
    show (update sb.entries (sb.slot sb.nextSequence) _ ((base + j) % sb.capacity.toNat)).state = _
    rw [h.slot_next]
    by_cases he : j = lo + sb.capacity.toNat
    · rw [he, ← add_assoc, Nat.add_mod_right, update_self]
      rfl
    · have hne : (base + j) % sb.capacity.toNat ≠ (base + lo) % sb.capacity.toNat :=
        slot_ne (by omega) (by omega) le_rfl (by omega) (by omega)
      rw [update_of_ne hne]
      exact h.free j hhi (by omega)

theorem retire (advanced : Nat) :
    ∃ k, (sb.retire (hi - lo) advanced).2 = advanced + k ∧ lo + k ≤ hi ∧ (∀ i, lo ≤ i → i < lo + k → fin i = true) ∧
      (lo + k < hi → fin (lo + k) = false) ∧
      Flying (sb.retire (hi - lo) advanced).1 ctx base (lo + k) hi fin := by
  induction hn : hi - lo generalizing sb lo advanced with
  | zero => exact ⟨0, rfl, by have := h.le; omega, by omega, by omega, h⟩
  | succ n ih =>
    have hlt : lo < hi := by omega
    unfold CompletionScoreboard.retire
    by_cases hc : sb.headComplete
    · obtain ⟨k, hadv, hk, hfin, hhead, hfly⟩ := ih (h.retireHead hlt) (advanced + 1) (by omega)
      rw [if_pos hc]
      refine ⟨k + 1, by rw [hadv]; omega, by omega, fun i hi₀ hi₁ => ?_, ?_, ?_⟩
      · rcases Nat.eq_or_lt_of_le hi₀ with rfl | hlt'
        · exact (h.headComplete_iff hlt).1 hc
        · exact hfin i hlt' (by omega)
      · rw [show lo + (k + 1) = lo + 1 + k by omega]
        exact hhead
      · rw [show lo + (k + 1) = lo + 1 + k by omega]
        exact hfly
    · rw [if_neg hc]
      refine ⟨0, rfl, by omega, by omega, fun _ => ?_, h⟩
      rw [h.headComplete_iff hlt] at hc
      simpa using hc

end

end Flying

end

/-! ## The transport during a flight -/

/-- The sequences `base + lo, …, base + hi - 1` of the transport are in flight; those in `fin` have completed, the first
one has not. -/
structure Flight (t : CollTransport) (capacity base lo hi : Nat) (fin : Nat → Bool) : Prop where
  flying : Flying t.tracker.scoreboard t.context base lo hi fin
  head : lo < hi → fin lo = false
  agrees : t.tracker.scoreboard.capacity = t.capacity
  capacity_eq : t.capacity.toNat = capacity
  submit : t.nextSubmit = .ofNat (base + hi)
  contexts : ∀ j, lo ≤ j → j < hi → t.contexts ((base + j) % capacity) = t.context (.ofNat (base + j))

section
variable {t : CollTransport} {capacity base lo hi j : Nat} {fin : Nat → Bool}

namespace Flight

section

variable (h : Flight t capacity base lo hi fin) (hroom : hi < lo + capacity) (hsmall : base + hi + 1 < 2 ^ 64)
include h hroom hsmall

theorem trackSubmit : trackSubmit t.tracker (t.context t.nextSubmit) none =
      (.success, { t.tracker with
        scoreboard := t.tracker.scoreboard.submitEntry (t.context (.ofNat (base + hi))) none }) := by
  have hfly := h.flying
  have hle := hfly.le
  have hcap : t.tracker.scoreboard.capacity.toNat = capacity := by rw [h.agrees, h.capacity_eq]
  have hword : (UInt64.ofNat (base + hi)).toNat = base + hi := toNat_word (by omega)
  have hge : t.tracker.scoreboard.nextSequence ≤ UInt64.ofNat (base + hi) := by
    rw [UInt64.le_iff_toNat_le, hword, hfly.next]
    omega
  have hzero : t.tracker.scoreboard.capacity ≠ 0 := by
    intro hz
    have := hfly.capacity_pos
    rw [hz] at this
    exact absurd this (by decide)
  have hmax : UInt64.ofNat (base + hi) ≠ uint64Max := by
    intro he
    have hval := congrArg UInt64.toNat he
    have hlast : uint64Max.toNat = 2 ^ 64 - 1 := rfl
    rw [hword, hlast] at hval
    omega
  have hfree : (t.tracker.scoreboard.entryAt (.ofNat (base + hi))).state = .free := by
    rw [CompletionScoreboard.entryAt, CompletionScoreboard.slot, hword]
    exact hfly.free hi le_rfl (by omega)
  have hwindow : ¬ t.tracker.scoreboard.capacity.toNat ≤
      (UInt64.ofNat (base + hi) - t.tracker.scoreboard.nextSequence).toNat := by
    rw [UInt64.toNat_sub_of_le _ _ hge, hword, hfly.next]
    omega
  have hgen : t.generation = t.tracker.scoreboard.generation := hfly.generation 0
  rw [h.submit, Net.trackSubmit]
  simp only [CollTransport.context, hzero, hmax, hgen, UInt64.not_lt.2 hge, hwindow, hfree, or_self, ne_eq,
    not_true_eq_false, if_false]

theorem trackNext (hf : fin hi = false) : t.trackNext.1 = .success ∧ t.trackNext.2.2 = t.context (.ofNat (base + hi)) ∧
      (∀ q, t.trackNext.2.1.context q = t.context q) ∧ Flight t.trackNext.2.1 capacity base lo (hi + 1) fin := by
  have hcap : t.tracker.scoreboard.capacity.toNat = capacity := by rw [h.agrees, h.capacity_eq]
  have hword : (UInt64.ofNat (base + hi)).toNat = base + hi := toNat_word (by omega)
  have hsub := h.trackSubmit hroom hsmall
  have hle := h.flying.le
  rw [CollTransport.trackNext]
  simp only [hsub, ne_eq, not_true_eq_false, if_false]
  refine ⟨trivial, by rw [h.submit], fun _ => rfl, ?_⟩
  refine { flying := ?_, head := ?_, agrees := h.agrees, capacity_eq := h.capacity_eq, submit := ?_, contexts := ?_ }
  · exact h.flying.submitEntry (by omega) hsmall hf
  · intro _
    rcases Nat.eq_or_lt_of_le hle with rfl | hlt
    · exact hf
    · exact h.head hlt
  · rw [h.submit, ← UInt64.toNat_inj, UInt64.toNat_add, hword, toNat_word (by omega)]
    exact Nat.mod_eq_of_lt hsmall
  · intro j hlo hhi
    show update t.contexts (t.nextSubmit.toNat % t.capacity.toNat) _ ((base + j) % capacity) = t.context _
    rw [h.submit, hword, h.capacity_eq]
    rcases Nat.lt_succ_iff_lt_or_eq.1 hhi with hj | rfl
    · rw [update_of_ne (Flying.slot_ne hlo (by omega) hle hroom (ne_of_lt hj)), h.contexts j hlo hj]
    · rw [update_self]

end

theorem cancel (h : Flight t capacity base lo (hi + 1) fin) (hle : lo ≤ hi) (hf : fin hi = false) :
    (t.cancel (t.context (.ofNat (base + hi)))).1 = .success ∧
      (∀ q, (t.cancel (t.context (.ofNat (base + hi)))).2.context q = t.context q) ∧
      Flight (t.cancel (t.context (.ofNat (base + hi)))).2 capacity base lo hi fin := by
  have hsmall := h.flying.small
  have hsucc : UInt64.ofNat (base + hi) + 1 = t.nextSubmit := by
    rw [h.submit, ← UInt64.toNat_inj, UInt64.toNat_add, toNat_word (by omega), toNat_word (by omega)]
    exact Nat.mod_eq_of_lt hsmall
  have hne : t.nextSubmit ≠ 0 := by
    intro hz
    have hval := congrArg UInt64.toNat hz
    rw [h.submit, toNat_word (by omega)] at hval
    exact absurd hval (Nat.succ_ne_zero (base + hi))
  have hnames := h.flying.namesPending hle (Nat.lt_succ_self hi) hf
  have hentry := h.flying.entryAt_context hle (Nat.lt_succ_self hi)
  have hdrop : trackCancel t.tracker (t.context (.ofNat (base + hi))) = (.success, { t.tracker with
      scoreboard := t.tracker.scoreboard.dropEntry (t.context (.ofNat (base + hi))).sequence }) := by
    rw [trackCancel]
    simp only [not_true_eq_false, if_false, hnames, hentry]
  have hguard : ¬ (t.nextSubmit = 0 ∨ (t.context (.ofNat (base + hi))).sequence + 1 ≠ t.nextSubmit) :=
    not_or.2 ⟨hne, fun hn => hn hsucc⟩
  rw [CollTransport.cancel, if_neg hguard]
  simp only [hdrop, ne_eq, not_true_eq_false, if_false]
  refine ⟨trivial, fun _ => rfl, ?_⟩
  refine
    { flying := h.flying.dropLast hle, head := fun hlt => h.head (by omega), agrees := h.agrees,
      capacity_eq := h.capacity_eq, submit := ?_, contexts := fun j hlo hhi => h.contexts j hlo (by omega) }
  rw [← hsucc, UInt64.add_sub_cancel]

theorem complete (h : Flight t capacity base lo hi fin) (hlo : lo ≤ j) (hhi : j < hi) (hf : fin j = false) :
    let out := t.complete (t.contexts ((base + j) % capacity)) .success
    out.1 = .success ∧ (∀ q, out.2.2.context q = t.context q) ∧
      lo + out.2.1 ≤ hi ∧ (∀ i, lo ≤ i → i < lo + out.2.1 → update fin j true i = true) ∧
      Flight out.2.2 capacity base (lo + out.2.1) hi (update fin j true) := by
  intro out
  have hnames := h.flying.namesPending hlo hhi hf
  have hentry := h.flying.entryAt_context hlo hhi
  obtain ⟨k, hadv, hk, hfin, hhead, hfly⟩ := (h.flying.completeEntry hlo hhi).retire 0
  have hcall : trackCompletion t.tracker (t.context (.ofNat (base + j))) .success =
      (.success, ((t.tracker.scoreboard.completeEntry (t.context (.ofNat (base + j))).sequence .success).retire
        (hi - lo) 0).2, { t.tracker with
        scoreboard := ((t.tracker.scoreboard.completeEntry (t.context (.ofNat (base + j))).sequence .success).retire
          (hi - lo) 0).1 }) := by
    rw [trackCompletion, h.flying.inFlight]
    simp only [not_true_eq_false, if_false, hnames, hentry, reduceCtorEq, ne_eq]
  have hout : out = (.success, k, { t with tracker := { t.tracker with
      scoreboard := ((t.tracker.scoreboard.completeEntry (t.context (.ofNat (base + j))).sequence .success).retire
        (hi - lo) 0).1 } }) := by
    show t.complete _ _ = _
    rw [h.contexts j hlo hhi, CollTransport.complete]
    simp only [hcall]
    rw [hadv, zero_add]
  rw [hout]
  refine ⟨rfl, fun _ => rfl, hk, hfin, ?_⟩
  refine
    { flying := hfly, head := hhead, agrees := ?_, capacity_eq := h.capacity_eq, submit := h.submit,
      contexts := fun i hi₀ hi₁ => h.contexts i (by omega) hi₁ }
  rw [CompletionScoreboard.retire_capacity]
  exact h.agrees

theorem congr (h : Flight t capacity base lo hi fin) {fin' : Nat → Bool}
    (hfin : ∀ j, lo ≤ j → j < hi → fin j = fin' j) : Flight t capacity base lo hi fin' :=
  { h with
    flying := { h.flying with
      entry := fun j hlo hhi => by
        rw [h.flying.entry j hlo hhi, hfin j hlo hhi] }
    head := fun hlt => by
      rw [← hfin lo le_rfl hlt]
      exact h.head hlt }

theorem completeHead (h : Flight t capacity base lo hi fun _ => false) (hlt : lo < hi) :
    let out := t.complete (t.contexts ((base + lo) % capacity)) .success
    out.1 = .success ∧ out.2.1 = 1 ∧ Flight out.2.2 capacity base (lo + 1) hi fun _ => false := by
  have hcall := h.complete le_rfl hlt rfl
  generalize t.complete (t.contexts ((base + lo) % capacity)) .success = out at hcall ⊢
  obtain ⟨hok, -, hle, hfin, hflight⟩ := hcall
  have hother : ∀ i, i ≠ lo → update (fun _ => false) lo true i = false := fun i hi => update_of_ne hi _ _
  have hone : out.2.1 = 1 := by
    rcases lt_trichotomy out.2.1 1 with h0 | h1 | h2
    · have hhead := hflight.head (by omega)
      rw [Nat.lt_one_iff.1 h0, add_zero, update_self] at hhead
      exact absurd hhead (by decide)
    · exact h1
    · have hnext := hfin (lo + 1) (Nat.le_succ lo) (by omega)
      rw [hother _ (Nat.succ_ne_self lo)] at hnext
      exact absurd hnext (by decide)
  rw [hone] at hflight
  exact ⟨hok, hone, hflight.congr fun j hlo _ => hother j (by omega)⟩

theorem start (hagree : t.tracker.scoreboard.capacity = t.capacity) (hcap : t.capacity.toNat = capacity)
    (hpos : 0 < capacity) (hnext : t.tracker.scoreboard.nextSequence = .ofNat base) (hsmall : base < 2 ^ 64)
    (hgen : t.tracker.scoreboard.generation = t.generation) (hin : t.tracker.scoreboard.inFlight = 0)
    (hfree : ∀ i, (t.tracker.scoreboard.entries i).state = .free) (hsubmit : t.nextSubmit = .ofNat base)
    (fin : Nat → Bool) : Flight t capacity base 0 0 fin where
  flying :=
    { capacity_pos := by rwa [hagree, hcap], next := by rw [hnext, toNat_word hsmall, Nat.add_zero], le := le_rfl,
      room := Nat.zero_le _, small := hsmall, inFlight := hin, sequence := fun _ => rfl,
      generation := fun _ => hgen.symm, entry := fun j _ hj => absurd hj (Nat.not_lt_zero j),
      free := fun j _ _ => hfree _ }
  head := fun hlt => absurd hlt (lt_irrefl 0)
  agrees := hagree
  capacity_eq := hcap
  submit := hsubmit
  contexts := fun j _ hj => absurd hj (Nat.not_lt_zero j)

end Flight

end

end FlagCX.Net
