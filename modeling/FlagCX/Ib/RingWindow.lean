import FlagCX.Ib.Ring
import FlagCX.Lib.Window

/-!
# The retransmission ring is a window of the sequence numbers

Without wrapping, the sends are numbered 0, 1, 2, ... The ring holds a window `[lo, hi)` of them: number `i` stands at slot
`i % 2048` with sequence number `i % (mask + 1)`, and `sendUna` is a number `una ≤ lo` that only grows.

* `Layout build r w`    : the ring holds the window.
* `Window.ack`          : what a cumulative ACK does to the window (`Window.ack_spec`, `freeAcked_layout`).
-/

namespace FlagCX.Ib
open Function Option

open Lib

/-! ## Sequence numbers -/

/-- The number of sequence numbers. -/
def Build.modulus (build : Build) : Nat := build.seqMask + 1

/-- Sequence number `q` is not after `a`: `a` lies at most half a turn ahead of `q`. -/
def notAfter (M q a : Nat) : Prop := (a + M - q) % M ≤ M / 2

instance (M q a : Nat) : Decidable (notAfter M q a) := inferInstanceAs (Decidable (_ ≤ _))

theorem Build.two_lt_modulus (build : Build) : 2 < build.modulus := by
  cases build with
  | ibrc => decide
  | ibuc => decide

theorem Build.and_seqMask (build : Build) (x : Nat) : x &&& build.seqMask = x % build.modulus := by
  cases build with
  | ibrc => exact Nat.and_two_pow_sub_one_eq_mod x 16
  | ibuc => exact Nat.and_two_pow_sub_one_eq_mod x 12

section

variable {q a : Nat} (build : Build) (hq : q < build.modulus) (ha : a < build.modulus)
include build hq ha

theorem Build.seqLess_iff : build.seqLess q a = true ↔ build.modulus / 2 ≤ (q + build.modulus - a) % build.modulus := by
  unfold Build.seqLess
  simp only [build.and_seqMask, Bool.and_eq_true, bne_iff_ne, decide_eq_true_eq]
  cases build with
  | ibrc | ibuc =>
    simp only [Build.modulus, Build.seqMask] at *
    omega

theorem Build.seqLeq_iff : build.seqLeq q a = true ↔ notAfter build.modulus q a := by
  unfold Build.seqLeq notAfter
  rw [Bool.or_eq_true, build.seqLess_iff hq ha, beq_iff_eq]
  cases build with
  | ibrc | ibuc =>
    simp only [Build.modulus, Build.seqMask] at *
    omega

end

/-! ## Windows -/

/-- The window of the numbers tracked, and the oldest number not acknowledged. -/
structure Window where
  una : Nat
  lo : Nat
  hi : Nat
  deriving DecidableEq, Repr

/-- A cumulative ACK: it lies `ahead` sequence numbers ahead of the oldest entry, and frees up to its own number when
that is at most half a turn. -/
def Window.ack (M ackSeq : Nat) (w : Window) : Window :=
  let lo := min w.hi (w.lo + ahead M w.lo ackSeq + 1)
  if w.lo < w.hi ∧ ahead M w.lo ackSeq ≤ M / 2 then ⟨lo, lo, w.hi⟩ else w

def Window.step (build : Build) (enabled : Bool) (w : Window) : RingCall → Window
  | .sendPacket _ _ =>
    if enabled = false then w
    else { w with lo := if maxInflight ≤ w.hi - w.lo then w.lo + 1 else w.lo, hi := w.hi + 1 }
  | .sendBatch _ _ => if enabled = false then w else { w with hi := w.hi + 1 }
  | .processAck ack _ => if enabled = false then w else w.ack build.modulus ack.ackSeq
  | .checkTimeout _ => w
  | .resend _ _ => w

variable {w : Window}

theorem Window.ack_spec {M ackSeq : Nat} (hM : 2 < M) (ha : ackSeq < M) (hw : w.lo ≤ w.hi) :
    (w.ack M ackSeq).hi = w.hi ∧ w.lo ≤ (w.ack M ackSeq).lo ∧ (w.ack M ackSeq).lo ≤ w.hi ∧
      (∀ i, w.lo ≤ i → i < (w.ack M ackSeq).lo → notAfter M (i % M) ackSeq) ∧
      ((w.ack M ackSeq).lo < w.hi → ¬ notAfter M ((w.ack M ackSeq).lo % M) ackSeq) := by
  unfold Window.ack
  dsimp only
  split_ifs with hc
  · dsimp only
    refine ⟨rfl, by omega, by omega, ?_, ?_⟩
    · intro i hlo hi
      change ahead M i ackSeq ≤ M / 2
      obtain ⟨j, rfl⟩ := Nat.exists_eq_add_of_le hlo
      rw [ahead_add ha (by omega)]
      omega
    · intro hlt
      change ¬ ahead M _ ackSeq ≤ M / 2
      have he : min w.hi (w.lo + ahead M w.lo ackSeq + 1) = w.lo + ahead M w.lo ackSeq + 1 := by omega
      rw [he, ahead_passed ha]
      omega
  · exact ⟨rfl, le_rfl, hw, fun i hlo hi => absurd hi (by omega), fun hlt hle => hc ⟨hlt, hle⟩⟩

theorem Window.ack_next {M ackSeq : Nat} (hM : 2 < M) (ha : ackSeq < M) (hlt : w.lo < w.hi)
    (hle : notAfter M (w.lo % M) ackSeq) :
    Window.ack M ackSeq ⟨w.lo + 1, w.lo + 1, w.hi⟩ = w.ack M ackSeq := by
  have hle' : ahead M w.lo ackSeq ≤ M / 2 := hle
  have hw : w.ack M ackSeq = ⟨min w.hi (w.lo + ahead M w.lo ackSeq + 1),
      min w.hi (w.lo + ahead M w.lo ackSeq + 1), w.hi⟩ := if_pos ⟨hlt, hle'⟩
  rw [hw, Window.ack]
  dsimp only
  rw [ahead_succ ha]
  by_cases hz : ahead M w.lo ackSeq = 0
  · have he : min w.hi (w.lo + ahead M w.lo ackSeq + 1) = w.lo + 1 := by omega
    rw [if_pos hz, if_neg (by omega), he]
  · split_ifs with hc
    · rw [show w.lo + 1 + (ahead M w.lo ackSeq - 1) + 1 = w.lo + ahead M w.lo ackSeq + 1 by omega]
    · rw [show min w.hi (w.lo + ahead M w.lo ackSeq + 1) = w.lo + 1 by omega]

theorem Window.ack_stale {M ackSeq : Nat} (ha : ackSeq < M)
    (hd : 0 < (w.lo % M + M - ackSeq) % M) (hd' : (w.lo % M + M - ackSeq) % M < M / 2) : w.ack M ackSeq = w := by
  have hx := Nat.mod_lt w.lo (Nat.lt_of_le_of_lt (Nat.zero_le ackSeq) ha)
  have hgap : M / 2 < ahead M w.lo ackSeq := by
    rw [ahead_eq ha]
    by_cases hle : ackSeq ≤ w.lo % M
    · have he : (w.lo % M + M - ackSeq) % M = w.lo % M - ackSeq := by
        rw [Nat.sub_add_comm hle, Nat.add_mod_right, Nat.mod_eq_of_lt (by omega)]
      split_ifs <;> omega
    · rw [Nat.mod_eq_of_lt (by omega)] at hd hd'
      split_ifs <;> omega
  exact if_neg fun hc => absurd hc.2 (by omega)

theorem Window.ack_una (M ackSeq : Nat) (w : Window) :
    (w.ack M ackSeq).una = if (w.ack M ackSeq).lo = w.lo then w.una else (w.ack M ackSeq).lo := by
  unfold Window.ack
  by_cases hc : w.lo < w.hi ∧ ahead M w.lo ackSeq ≤ M / 2
  · rw [if_pos hc]
    dsimp only
    rw [if_neg (by omega)]
  · rw [if_neg hc, if_pos rfl]

theorem Window.una_le_step (build : Build) (enabled : Bool) (hu : w.una ≤ w.lo) (c : RingCall) :
    w.una ≤ (w.step build enabled c).una := by
  cases c with
  | sendPacket packet nowUs =>
    unfold Window.step
    split_ifs <;> exact le_rfl
  | sendBatch batch nowUs =>
    unfold Window.step
    split_ifs <;> exact le_rfl
  | processAck ack nowUs =>
    unfold Window.step Window.ack
    dsimp only
    split_ifs with h1 h2
    · exact le_rfl
    · dsimp only
      omega
    · exact le_rfl
  | checkTimeout env => exact le_rfl
  | resend seq env => exact le_rfl

/-! ## The layout of the ring -/

/-- The ring holds the window. -/
structure Layout (build : Build) (r : RingComm) (w : Window) : Prop where
  lo_le : w.lo ≤ w.hi
  fits : w.hi ≤ w.lo + maxInflight
  head : r.bufferHead = w.lo % maxInflight
  tail : r.bufferTail = w.hi % maxInflight
  count : r.bufferCount = w.hi - w.lo
  live : ∀ i, w.lo ≤ i → i < w.hi →
    (r.slots (i % maxInflight)).valid = true ∧ (r.slots (i % maxInflight)).seq = i % build.modulus
  dead : ∀ j < maxInflight, (r.slots j).valid = true → ∃ i, w.lo ≤ i ∧ i < w.hi ∧ j = i % maxInflight

/-- The counters of the communicator are those of the window. -/
structure Numbered (build : Build) (r : RingComm) (w : Window) : Prop where
  una_le : w.una ≤ w.lo
  sendSeq : r.comm.sendSeq = w.hi % build.modulus
  sendUna : r.comm.sendUna = w.una % build.modulus

theorem maxInflight_pos : 0 < maxInflight := by decide

section
variable {build : Build} {r r' : RingComm} {w : Window}

theorem slot_inj {i j : Nat} (hfits : w.hi ≤ w.lo + maxInflight) (hi : w.lo ≤ i) (hi' : i < w.hi) (hj : w.lo ≤ j)
    (hj' : j < w.hi) (h : i % maxInflight = j % maxInflight) : i = j :=
  mod_inj_window hi (by omega) hj (by omega) h

theorem Layout.popHead (h : Layout build r w) (hlt : w.lo < w.hi) (s : Slot) (una : Nat) :
    Layout build (r.popHead s) ⟨una, w.lo + 1, w.hi⟩ := by
  have hcount := h.count
  have hfits := h.fits
  refine ⟨hlt, by dsimp only; omega, ?_, h.tail, ?_, ?_, ?_⟩
  · change (r.bufferHead + 1) % maxInflight = (w.lo + 1) % maxInflight
    rw [h.head, Nat.mod_add_mod]
  · change r.bufferCount - 1 = w.hi - (w.lo + 1)
    omega
  · intro i hi hi'
    dsimp only at hi hi'
    have hne : i % maxInflight ≠ r.bufferHead := by
      rw [h.head]
      intro he
      have := slot_inj hfits (by omega) hi' le_rfl hlt he
      omega
    change (update r.slots r.bufferHead _ (i % maxInflight)).valid = true ∧
      (update r.slots r.bufferHead _ (i % maxInflight)).seq = _
    rw [update_of_ne hne]
    exact h.live i (by omega) hi'
  · intro j hj hv
    change (update r.slots r.bufferHead { s with valid := false } j).valid = true at hv
    by_cases he : j = r.bufferHead
    · rw [he, update_self] at hv
      exact absurd hv (by simp)
    · rw [update_of_ne he] at hv
      obtain ⟨i, hi, hi', hji⟩ := h.dead j hj hv
      have hne : i ≠ w.lo := by
        intro hil
        rw [hji, hil, ← h.head] at he
        exact he rfl
      exact ⟨i, by dsimp only; omega, hi', hji⟩

theorem Layout.pushTail (h : Layout build r w) (hroom : w.hi < w.lo + maxInflight) {s : Slot} (hv : s.valid = true)
    (hs : s.seq = w.hi % build.modulus) : Layout build (r.pushTail s) { w with hi := w.hi + 1 } := by
  have hcount := h.count
  have hlo := h.lo_le
  have hslots : ∀ j, (r.pushTail s).slots j = if j = w.hi % maxInflight then s else r.slots j := by
    intro j
    change update r.slots r.bufferTail s j = _
    rw [h.tail, update_apply]
  refine ⟨by dsimp only; omega, by dsimp only; omega, h.head, ?_, ?_, ?_, ?_⟩
  · change (r.bufferTail + 1) % maxInflight = (w.hi + 1) % maxInflight
    rw [h.tail, Nat.mod_add_mod]
  · change r.bufferCount + 1 = w.hi + 1 - w.lo
    omega
  · intro i hi hi'
    dsimp only at hi hi'
    rw [hslots]
    by_cases he : i = w.hi
    · subst he
      rw [if_pos rfl]
      exact ⟨hv, hs⟩
    · have hne : i % maxInflight ≠ w.hi % maxInflight := by
        intro hmod
        exact he (mod_inj_window hi (by omega) (by omega) hroom hmod)
      rw [if_neg hne]
      exact h.live i hi (by omega)
  · intro j hj hvj
    rw [hslots] at hvj
    by_cases he : j = w.hi % maxInflight
    · exact ⟨w.hi, hlo, by dsimp only; omega, he⟩
    · rw [if_neg he] at hvj
      obtain ⟨i, hi, hi', hji⟩ := h.dead j hj hvj
      exact ⟨i, hi, by dsimp only; omega, hji⟩

/-! ## Acknowledgements -/

theorem Layout.freeHead (h : Layout build r w) (hlt : w.lo < w.hi) (una : Nat) :
    Layout build (r.freeHead build) ⟨una, w.lo + 1, w.hi⟩ := by
  have hc : Layout build { r with comm := { r.comm with
      events := dropRequests r.comm.events (r.slots r.bufferHead).entry.batch.requests
        (r.slots r.bufferHead).entry.batch.ackDevIndex
      sendUna := ((r.slots r.bufferHead).entry.batch.seq + 1) &&& build.seqMask } } w :=
    ⟨h.lo_le, h.fits, h.head, h.tail, h.count, h.live, h.dead⟩
  exact hc.popHead hlt _ una

theorem Numbered.freeHead (h : Layout build r w) (hn : Numbered build r w) (hlt : w.lo < w.hi) :
    Numbered build (r.freeHead build) ⟨w.lo + 1, w.lo + 1, w.hi⟩ := by
  refine ⟨le_rfl, hn.sendSeq, ?_⟩
  have hseq : (r.slots r.bufferHead).entry.batch.seq = w.lo % build.modulus := by
    rw [h.head]
    exact (h.live w.lo le_rfl hlt).2
  change ((r.slots r.bufferHead).entry.batch.seq + 1) &&& build.seqMask = (w.lo + 1) % build.modulus
  rw [build.and_seqMask, hseq, Nat.mod_add_mod]

theorem freeAcked_layout {ackSeq : Nat} (ha : ackSeq < build.modulus) (n : Nat)
    (h : Layout build r w) (hn : Numbered build r w) (hk : w.hi - w.lo = n) :
    Layout build (r.freeAcked build ackSeq n) (w.ack build.modulus ackSeq) ∧
      Numbered build (r.freeAcked build ackSeq n) (w.ack build.modulus ackSeq) ∧
      ∀ i, (w.ack build.modulus ackSeq).lo ≤ i → i < w.hi →
        (r.freeAcked build ackSeq n).slots (i % maxInflight) = r.slots (i % maxInflight) := by
  induction n generalizing r w with
  | zero =>
    have hw : w.ack build.modulus ackSeq = w := if_neg fun hc => absurd hc.1 (by omega)
    rw [hw]
    exact ⟨h, hn, fun _ _ _ => rfl⟩
  | succ n ih =>
    have hlt : w.lo < w.hi := by omega
    obtain ⟨hvalid, hseq⟩ := h.live w.lo le_rfl hlt
    rw [← h.head] at hvalid hseq
    have hleq : build.seqLeq (r.slots r.bufferHead).seq ackSeq = true ↔
        notAfter build.modulus (w.lo % build.modulus) ackSeq := by
      rw [hseq]
      exact build.seqLeq_iff (Nat.mod_lt _ (by have := build.two_lt_modulus; omega)) ha
    rw [RingComm.freeAcked, if_neg (by simp [hvalid])]
    by_cases hle : notAfter build.modulus (w.lo % build.modulus) ackSeq
    · rw [if_pos (hleq.2 hle)]
      have hnext := Window.ack_next build.two_lt_modulus ha hlt hle
      obtain ⟨hl, hnum, hslots⟩ := ih (h.freeHead hlt (w.lo + 1)) (Numbered.freeHead h hn hlt) (by dsimp only; omega)
      rw [hnext] at hl hnum hslots
      refine ⟨hl, hnum, fun i hi hi' => ?_⟩
      have hne : i % maxInflight ≠ r.bufferHead := by
        have hgt := (Window.ack_spec build.two_lt_modulus ha (w := ⟨w.lo + 1, w.lo + 1, w.hi⟩) hlt).2.1
        rw [hnext] at hgt
        dsimp only at hgt
        intro he
        rw [h.head] at he
        have := slot_inj h.fits (by omega) hi' le_rfl hlt he
        omega
      rw [hslots i hi hi']
      exact update_of_ne hne _ _
    · rw [if_neg fun hc => hle (hleq.1 hc)]
      have hw : w.ack build.modulus ackSeq = w := if_neg fun hc => hle hc.2
      rw [hw]
      exact ⟨h, hn, fun _ _ _ => rfl⟩

theorem processAck_layout {ack : AckMsg} (ha : ack.ackSeq < build.modulus) (nowUs : Nat) (h : Layout build r w)
    (hn : Numbered build r w) (he : r.enabled = true) :
    Layout build (r.processAck build ack nowUs) (w.ack build.modulus ack.ackSeq) ∧
      Numbered build (r.processAck build ack nowUs) (w.ack build.modulus ack.ackSeq) ∧
      ∀ i, (w.ack build.modulus ack.ackSeq).lo ≤ i → i < w.hi →
        (r.processAck build ack nowUs).slots (i % maxInflight) = r.slots (i % maxInflight) := by
  unfold RingComm.processAck
  rw [if_neg (by simp [he])]
  have hrto : ∀ comm : SendComm, comm.sendSeq = r.comm.sendSeq → comm.sendUna = r.comm.sendUna →
      Layout build { r with comm := comm } w ∧ Numbered build { r with comm := comm } w := by
    intro comm hs hu
    exact ⟨⟨h.lo_le, h.fits, h.head, h.tail, h.count, h.live, h.dead⟩, hn.una_le, hs.trans hn.sendSeq,
      hu.trans hn.sendUna⟩
  dsimp only
  split_ifs with hc
  · obtain ⟨hl, hnum⟩ := hrto (updateRTO r.comm ((nowUs + 2 ^ 64 - ack.timestampUs) % 2 ^ 64)) rfl rfl
    exact freeAcked_layout ha r.bufferCount hl hnum h.count.symm
  · exact freeAcked_layout ha r.bufferCount h hn h.count.symm

/-! ## Retransmission leaves the ring as it is -/

/-- The two rings have the same entries at the same slots, up to what a retransmission changes of an entry. -/
structure SameRing (r r' : RingComm) : Prop where
  head : r'.bufferHead = r.bufferHead
  tail : r'.bufferTail = r.bufferTail
  count : r'.bufferCount = r.bufferCount
  valid : ∀ j, (r'.slots j).valid = (r.slots j).valid
  seq : ∀ j, (r'.slots j).seq = (r.slots j).seq
  sendSeq : r'.comm.sendSeq = r.comm.sendSeq
  sendUna : r'.comm.sendUna = r.comm.sendUna

theorem SameRing.refl (r : RingComm) : SameRing r r := ⟨rfl, rfl, rfl, fun _ => rfl, fun _ => rfl, rfl, rfl⟩

theorem SameRing.trans {r'' : RingComm} (h : SameRing r r') (h' : SameRing r' r'') : SameRing r r'' :=
  ⟨h'.head.trans h.head, h'.tail.trans h.tail, h'.count.trans h.count, fun j => (h'.valid j).trans (h.valid j),
    fun j => (h'.seq j).trans (h.seq j), h'.sendSeq.trans h.sendSeq, h'.sendUna.trans h.sendUna⟩

theorem SameRing.layout (hs : SameRing r r') (h : Layout build r w) : Layout build r' w := by
  refine ⟨h.lo_le, h.fits, hs.head.trans h.head, hs.tail.trans h.tail, hs.count.trans h.count, ?_, ?_⟩
  · intro i hi hi'
    rw [hs.valid, hs.seq]
    exact h.live i hi hi'
  · intro j hj hv
    rw [hs.valid] at hv
    exact h.dead j hj hv

theorem SameRing.numbered (hs : SameRing r r') (hn : Numbered build r w) : Numbered build r' w :=
  ⟨hn.una_le, hs.sendSeq.trans hn.sendSeq, hs.sendUna.trans hn.sendUna⟩

theorem sameRing_setSlot {idx : Nat} {s : Slot} {comm : SendComm} (hv : s.valid = (r.slots idx).valid)
    (hq : s.seq = (r.slots idx).seq) (hs : comm.sendSeq = r.comm.sendSeq) (hu : comm.sendUna = r.comm.sendUna) :
    SameRing r ({ r with comm := comm }.setSlot idx s) := by
  have hslots : ∀ j, ({ r with comm := comm }.setSlot idx s).slots j = if j = idx then s else r.slots j := by
    intro j
    change update r.slots idx s j = _
    rw [update_apply]
  refine ⟨rfl, rfl, rfl, ?_, ?_, hs, hu⟩
  · intro j
    rw [hslots]
    split_ifs with hj
    · rw [hj, hv]
    · rfl
  · intro j
    rw [hslots]
    split_ifs with hj
    · rw [hj, hq]
    · rfl

theorem postWindow_keeps (post : Nat → Result) (wrs : List WindowWr) (i : Nat) (c : SendComm) (e : RetransEntry)
    (sent : List Chunk) :
    (postWindow post wrs i c e sent).2.1.sendSeq = c.sendSeq ∧ (postWindow post wrs i c e sent).2.1.sendUna = c.sendUna ∧
      (postWindow post wrs i c e sent).2.2.1.batch = e.batch := by
  induction wrs generalizing i c e sent with
  | nil => exact ⟨rfl, rfl, rfl⟩
  | cons wr wrs ih =>
    rw [postWindow]
    split
    · obtain ⟨hs, hu, hb⟩ := ih (i + 1) (acceptChunk c e.batch) (e.advance wr) (sent ++ [wr.chunk])
      have hacc : (acceptChunk c e.batch).sendSeq = c.sendSeq ∧ (acceptChunk c e.batch).sendUna = c.sendUna := by
        unfold acceptChunk
        split <;> exact ⟨rfl, rfl⟩
      exact ⟨hs.trans hacc.1, hu.trans hacc.2, hb⟩
    · exact ⟨rfl, rfl, rfl⟩
    · exact ⟨rfl, rfl, rfl⟩

theorem resendEntry_keeps (c : SendComm) (e : RetransEntry) (nowUs : Nat) (post : Nat → Result) :
    (resendEntry c e nowUs post).2.1.sendSeq = c.sendSeq ∧ (resendEntry c e nowUs post).2.1.sendUna = c.sendUna ∧
      (resendEntry c e nowUs post).2.2.1.batch = e.batch := by
  unfold resendEntry
  split
  · exact ⟨rfl, rfl, rfl⟩
  · split
    · exact ⟨rfl, rfl, rfl⟩
    · exact ⟨rfl, rfl, rfl⟩
    · rename_i wrs _ _
      have hpost := postWindow_keeps post wrs 0 c e []
      split
      · rename_i hout
        rw [hout] at hpost
        exact hpost
      · rename_i hout
        rw [hout] at hpost
        exact hpost
      · rename_i hout
        rw [hout] at hpost
        exact hpost

theorem resendLegacy_sameRing (r : RingComm) (idx : Nat) (env : ResendEnv) : SameRing r (r.resendLegacy idx env).2 := by
  unfold RingComm.resendLegacy
  dsimp only
  by_cases h1 : (r.slots idx).packet.data.isNone = true ∨ (r.slots idx).packet.size = 0
  · rw [if_pos h1]
    exact SameRing.refl r
  rw [if_neg h1]
  by_cases h2 : r.maxOutstanding ≤ r.outstandingSends + r.comm.outstandingRetrans
  · rw [if_pos h2]
    exact SameRing.refl r
  rw [if_neg h2]
  by_cases h3 : env.qpValid = false
  · rw [if_pos h3]
    exact SameRing.refl r
  rw [if_neg h3]
  split
  · exact sameRing_setSlot rfl rfl rfl rfl
  · exact ⟨rfl, rfl, rfl, fun _ => rfl, fun _ => rfl, rfl, rfl⟩

theorem resendViaSend_sameRing (r : RingComm) (seq : Nat) (env : ResendEnv) : SameRing r (r.resendViaSend seq env).2 := by
  unfold RingComm.resendViaSend
  split_ifs with h1 h2
  · exact SameRing.refl r
  · exact ⟨rfl, rfl, rfl, fun _ => rfl, fun _ => rfl, rfl, rfl⟩
  · cases r.findSeq seq r.bufferCount r.bufferHead with
    | none => exact SameRing.refl r
    | some idx =>
      dsimp only
      split
      · obtain ⟨hs, hu, hb⟩ := resendEntry_keeps r.comm (r.slots idx).entry env.nowUs env.post
        exact sameRing_setSlot rfl (congrArg Batch.seq hb) hs hu
      · exact resendLegacy_sameRing r idx env

theorem checkTimeoutFrom_sameRing (env : ResendEnv) (n idx : Nat) (r : RingComm) :
    SameRing r (r.checkTimeoutFrom env n idx).2 := by
  induction n generalizing idx with
  | zero => exact SameRing.refl r
  | succ n ih =>
    rw [RingComm.checkTimeoutFrom]
    dsimp only
    split
    · exact ih _
    split
    · exact resendViaSend_sameRing r _ env
    split
    · split
      · exact SameRing.refl r
      split
      · exact SameRing.refl r
      · -- a timeout resets the cursor of the entry and resends it
        have hrestart : SameRing r (if r.retransUsesRc = true ∧ 0 < (r.slots idx).entry.batch.nreqs then
            r.setSlot idx { r.slots idx with entry := (r.slots idx).entry.restart } else r) := by
          split
          · exact sameRing_setSlot rfl rfl rfl rfl
          · exact SameRing.refl r
        generalize (if r.retransUsesRc = true ∧ 0 < (r.slots idx).entry.batch.nreqs then
            r.setSlot idx { r.slots idx with entry := (r.slots idx).entry.restart } else r) = r₁ at hrestart ⊢
        have hsend := hrestart.trans (resendViaSend_sameRing r₁ (r.slots idx).seq env)
        split
        · exact ⟨hsend.head, hsend.tail, hsend.count, hsend.valid, hsend.seq, hsend.sendSeq, hsend.sendUna⟩
        · exact hsend
    · exact ih _

theorem checkTimeout_sameRing (r : RingComm) (env : ResendEnv) : SameRing r (r.checkTimeout env).2 := by
  unfold RingComm.checkTimeout
  split_ifs
  · exact SameRing.refl r
  · exact checkTimeoutFrom_sameRing env _ _ r

/-! ## Runs -/

/-- The ring after `flagcxIbRetransInit`. -/
structure RingComm.Fresh (r : RingComm) : Prop where
  head : r.bufferHead = 0
  tail : r.bufferTail = 0
  count : r.bufferCount = 0
  slots : ∀ j, (r.slots j).valid = false
  sendSeq : r.comm.sendSeq = 0
  sendUna : r.comm.sendUna = 0

/-- The call as the adaptors make it: batches exist in the IB-UC build and have 1 to 8 requests, and an ACK carries a
sequence number. -/
def RingCall.WellFormed (build : Build) : RingCall → Prop
  | .sendPacket _ _ => True
  | .sendBatch batch _ => build = .ibuc ∧ 0 < batch.nreqs ∧ batch.nreqs ≤ maxRecvs
  | .processAck ack _ => ack.ackSeq < build.modulus
  | .checkTimeout _ => True
  | .resend _ _ => True

def ringStep (build : Build) (s : RingComm × Window) (c : RingCall) : Option (RingComm × Window) :=
  some (s.1.step build c, s.2.step build s.1.enabled c)

/-- The call is well formed and leaves less than half the sequence numbers outstanding. -/
def Provided (build : Build) (s : RingComm × Window) (c : RingCall) : Prop :=
  c.WellFormed build ∧ (s.1.step build c).bufferCount < build.modulus / 2

theorem RingComm.Fresh.layout (h : r.Fresh) : Layout build r ⟨0, 0, 0⟩ := by
  refine ⟨le_rfl, by simp, h.head, h.tail, h.count, ?_, ?_⟩
  · intro i _ hi
    exact absurd hi (by simp)
  · intro j _ hv
    rw [h.slots] at hv
    exact absurd hv (by simp)

theorem RingComm.Fresh.numbered (h : r.Fresh) : Numbered build r ⟨0, 0, 0⟩ :=
  ⟨le_rfl, by rw [h.sendSeq, Nat.zero_mod], by rw [h.sendUna, Nat.zero_mod]⟩

section

variable (h : Layout build r w) (hn : Numbered build r w)
include h hn

theorem takeSeq_layout : Layout build (r.takeSeq build).2 w ∧ (r.takeSeq build).1 = w.hi % build.modulus ∧
      (r.takeSeq build).2.comm.sendSeq = (w.hi + 1) % build.modulus := by
  refine ⟨⟨h.lo_le, h.fits, h.head, h.tail, h.count, h.live, h.dead⟩, hn.sendSeq, ?_⟩
  change (r.comm.sendSeq + 1) &&& build.seqMask = _
  rw [build.and_seqMask, hn.sendSeq, Nat.mod_add_mod]

theorem sendPacket_layout (packet : Packet) (nowUs : Nat) :
    Layout build (r.step build (.sendPacket packet nowUs)) (w.step build r.enabled (.sendPacket packet nowUs)) ∧
      Numbered build (r.step build (.sendPacket packet nowUs)) (w.step build r.enabled (.sendPacket packet nowUs)) := by
  unfold RingComm.step Window.step
  dsimp only
  by_cases he : r.enabled = false
  · rw [if_pos he, if_pos he]
    exact ⟨h, hn⟩
  rw [if_neg he, if_neg he]
  obtain ⟨hl, hseq, hnext⟩ := takeSeq_layout h hn
  have hfits := h.fits
  have huna := hn.una_le
  have hpos := maxInflight_pos
  have hcount : (r.takeSeq build).2.bufferCount = w.hi - w.lo := h.count
  have hen : ¬ (r.takeSeq build).2.enabled = false := he
  unfold RingComm.addPacket
  rw [if_neg hen, hcount]
  by_cases hfull : maxInflight ≤ w.hi - w.lo
  · -- the oldest packet is dropped, and `sendUna` stays behind
    simp only [hfull, if_true]
    refine ⟨(hl.popHead (by omega) _ w.una).pushTail (by dsimp only; omega) rfl hseq, ?_, hnext, hn.sendUna⟩
    dsimp only
    omega
  · simp only [hfull, if_false]
    exact ⟨hl.pushTail (by omega) rfl hseq, huna, hnext, hn.sendUna⟩

theorem sendBatch_layout {batch : Batch} {nowUs : Nat} (hb : 0 < batch.nreqs ∧ batch.nreqs ≤ maxRecvs)
    (hroom : (r.step build (.sendBatch batch nowUs)).bufferCount < maxInflight) :
    Layout build (r.step build (.sendBatch batch nowUs)) (w.step build r.enabled (.sendBatch batch nowUs)) ∧
      Numbered build (r.step build (.sendBatch batch nowUs)) (w.step build r.enabled (.sendBatch batch nowUs)) := by
  unfold RingComm.step at hroom ⊢
  unfold Window.step
  dsimp only at hroom ⊢
  by_cases he : r.enabled = false
  · rw [if_pos he, if_pos he]
    exact ⟨h, hn⟩
  rw [if_neg he] at hroom
  rw [if_neg he, if_neg he]
  obtain ⟨hl, hseq, hnext⟩ := takeSeq_layout h hn
  have hok : ¬ (({ batch with seq := (r.takeSeq build).1 } : Batch).nreqs = 0 ∨
      maxRecvs < ({ batch with seq := (r.takeSeq build).1 } : Batch).nreqs) := by
    change ¬ (batch.nreqs = 0 ∨ maxRecvs < batch.nreqs)
    omega
  have hen : ¬ (r.takeSeq build).2.enabled = false := he
  unfold RingComm.addBatch at hroom ⊢
  rw [if_neg hok, if_neg hen] at hroom ⊢
  by_cases hfull : maxInflight ≤ (r.takeSeq build).2.bufferCount
  · rw [if_pos hfull] at hroom
    exact absurd hroom (by dsimp only; omega)
  · rw [if_neg hfull]
    have hcount : (r.takeSeq build).2.bufferCount = w.hi - w.lo := h.count
    have hev : Layout build { (r.takeSeq build).2 with comm := { (r.takeSeq build).2.comm with
        events := holdRequests (r.takeSeq build).2.comm.events batch.requests batch.ackDevIndex } } w :=
      ⟨hl.lo_le, hl.fits, hl.head, hl.tail, hl.count, hl.live, hl.dead⟩
    exact ⟨hev.pushTail (by omega) rfl hseq, hn.una_le, hnext, hn.sendUna⟩

end

theorem step_layout {s s' : RingComm × Window} {c : RingCall} (h : Layout build s.1 s.2 ∧ Numbered build s.1 s.2)
    (hok : Provided build s c) (hstep : ringStep build s c = some s') :
    Layout build s'.1 s'.2 ∧ Numbered build s'.1 s'.2 := by
  obtain ⟨hl, hn⟩ := h
  obtain ⟨hwf, hhalf⟩ := hok
  obtain rfl := some.inj hstep
  cases c with
  | sendPacket packet nowUs => exact sendPacket_layout hl hn packet nowUs
  | sendBatch batch nowUs =>
    obtain ⟨rfl, hb⟩ := hwf
    exact sendBatch_layout hl hn hb hhalf
  | processAck ack nowUs =>
    dsimp only [RingComm.step, Window.step]
    by_cases he : s.1.enabled = false
    · rw [if_pos he, RingComm.processAck, if_pos he]
      exact ⟨hl, hn⟩
    · rw [if_neg he]
      obtain ⟨hl', hn', -⟩ := processAck_layout hwf nowUs hl hn (by simpa using he)
      exact ⟨hl', hn'⟩
  | checkTimeout env =>
    have hs := checkTimeout_sameRing s.1 env
    exact ⟨hs.layout hl, hs.numbered hn⟩
  | resend seq env =>
    have hs := resendViaSend_sameRing s.1 seq env
    exact ⟨hs.layout hl, hs.numbered hn⟩

/-- **The retransmission ring is a window of consecutive sequence numbers, and an ACK frees its longest acknowledged prefix**,
in every run with less than half the sequence numbers outstanding. -/
theorem retransRing_window (build : Build) {r₀ r : RingComm} {w : Window} (h0 : r₀.Fresh)
    (h : Reach (ringStep build) (Provided build) (r₀, ⟨0, 0, 0⟩) (r, w)) :
    Layout build r w ∧ Numbered build r w ∧ (∀ c, w.una ≤ (w.step build r.enabled c).una) ∧
    ∀ (ack : AckMsg) (nowUs : Nat), ack.ackSeq < build.modulus → r.enabled = true → ∃ lo, w.lo ≤ lo ∧ lo ≤ w.hi ∧
        (∀ i, w.lo ≤ i → i < lo → notAfter build.modulus (i % build.modulus) ack.ackSeq) ∧
        (lo < w.hi → ¬ notAfter build.modulus (lo % build.modulus) ack.ackSeq) ∧
        Layout build (r.processAck build ack nowUs) { w with lo := lo } ∧
        (∀ i, lo ≤ i → i < w.hi → (r.processAck build ack nowUs).slots (i % maxInflight) = r.slots (i % maxInflight)) ∧
        (r.processAck build ack nowUs).comm.sendUna =
          (if lo = w.lo then r.comm.sendUna else lo % build.modulus) ∧
        (0 < (w.lo % build.modulus + build.modulus - ack.ackSeq) % build.modulus →
          (w.lo % build.modulus + build.modulus - ack.ackSeq) % build.modulus < build.modulus / 2 → lo = w.lo) ∧
        (w.hi - w.una < build.modulus / 2 →
          build.seqLeq r.comm.sendUna (r.processAck build ack nowUs).comm.sendUna = true) := by
  obtain ⟨hl, hn⟩ : Layout build r w ∧ Numbered build r w :=
    h.invariant (I := fun s => Layout build s.1 s.2 ∧ Numbered build s.1 s.2) ⟨h0.layout, h0.numbered⟩
      fun s s' c hi hok hs => step_layout hi hok hs
  refine ⟨hl, hn, fun c => w.una_le_step build r.enabled hn.una_le c, ?_⟩
  intro ack nowUs ha he
  have hM := build.two_lt_modulus
  obtain ⟨hl', hn', hslots⟩ := processAck_layout ha nowUs hl hn he
  obtain ⟨hhi, hlo, hle, hpre, hstop⟩ := Window.ack_spec hM ha hl.lo_le
  refine ⟨(w.ack build.modulus ack.ackSeq).lo, hlo, hle, hpre, hstop, ?_, hslots, ?_, ?_, ?_⟩
  · refine ⟨hle, ?_, hl'.head, ?_, ?_, ?_, ?_⟩
    · rw [← hhi]
      exact hl'.fits
    · rw [← hhi]
      exact hl'.tail
    · rw [← hhi]
      exact hl'.count
    · intro i hi hi'
      exact hl'.live i hi (by rw [hhi]; exact hi')
    · intro j hj hv
      obtain ⟨i, hi, hi', hji⟩ := hl'.dead j hj hv
      exact ⟨i, hi, by rw [← hhi]; exact hi', hji⟩
  · rw [hn'.sendUna, Window.ack_una]
    split_ifs
    · exact hn.sendUna.symm
    · rfl
  · intro hd hd'
    rw [Window.ack_stale ha hd hd']
  · intro hout
    have huna := w.una_le_step build true hn.una_le (.processAck ack nowUs)
    have huna' := hn'.una_le
    have hmono : w.una ≤ (w.ack build.modulus ack.ackSeq).una := huna
    have hfar : (w.ack build.modulus ack.ackSeq).una < w.una + build.modulus := by omega
    rw [hn.sendUna, hn'.sendUna, build.seqLeq_iff (Nat.mod_lt _ (by omega)) (Nat.mod_lt _ (by omega))]
    change ahead build.modulus w.una _ ≤ _
    rw [ahead_of_le (by omega) hmono hfar]
    omega

/-- A send communicator that was just set up for RC retransmission. -/
def freshRing : RingComm where
  comm := ⟨0, 0, [], 5000, 0, 0, 5000, 320000, 10, 0, [], 0, fun _ _ => 0, .success⟩
  enabled := true
  slots := fun _ => ⟨⟨⟨0, 0, 0, 0, 0, [], []⟩, 0, 0, 0, 0, false⟩, Packet.none, false⟩
  bufferHead := 0
  bufferTail := 0
  bufferCount := 0
  outstandingSends := 0
  maxOutstanding := 16
  retransUsesRc := true
  retransHdrMr := true

def oneByteBatch : Batch := ⟨0, 0, 0, 1, 0, [0], [⟨1, fun _ => 7⟩]⟩

theorem retransRing_window_one_batch :
    Layout .ibuc (freshRing.step .ibuc (.sendBatch oneByteBatch 0)) ⟨0, 0, 1⟩ ∧
    ((freshRing.step .ibuc (.sendBatch oneByteBatch 0)).processAck .ibuc ⟨0, 0, 0, 0, 1⟩ 0).comm.sendUna = 1 := by
  have hfresh : freshRing.Fresh := ⟨rfl, rfl, rfl, fun _ => rfl, rfl, rfl⟩
  have hok : Provided .ibuc (freshRing, ⟨0, 0, 0⟩) (.sendBatch oneByteBatch 0) := ⟨⟨rfl, by decide, by decide⟩, by decide⟩
  have hreach : Reach (ringStep .ibuc) (Provided .ibuc) (freshRing, ⟨0, 0, 0⟩)
      (freshRing.step .ibuc (.sendBatch oneByteBatch 0), ⟨0, 0, 1⟩) := .next _ .init hok rfl
  obtain ⟨hlayout, -⟩ := retransRing_window .ibuc hfresh hreach
  exact ⟨hlayout, by decide⟩

end

end FlagCX.Ib
