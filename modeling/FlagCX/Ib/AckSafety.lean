import FlagCX.Ib.Delivery

/-!
# What an ACK releases

The sender frees the entry of a batch only after the receiver has accepted it and every batch before it, in runs whose
messages are not too old and in which the last data notification of a receive comes from a device that still waits for
one (`released_accepted`).

The receiver sends the ACK of the last notification before it looks at the count of its device. One that is delivered
twice can be taken for the one still missing: its batch is freed although it was not accepted (`released_unaccepted`).
-/

namespace FlagCX.Ib
open List Function

open Lib

/-! ## Sequence numbers -/

theorem seqLess_eq {a b : Nat} (ha : a < 4096) (hb : b < 4096) : seqLess a b = wrapLess 4096 a b := by
  unfold seqLess wrapLess
  rw [and_seqMask, show seqMask >>> 1 = 2047 from rfl]
  rw [Bool.eq_iff_iff]
  simp only [Bool.and_eq_true, bne_iff_ne, ne_eq, decide_eq_true_eq]
  omega

theorem seqLess_iff {a b : Nat} (h : a < b + 2048) (h' : b < a + 2048) : seqLess (a % 4096) (b % 4096) = true ↔ a < b := by
  rw [seqLess_eq (by omega) (by omega)]
  rcases lt_or_ge a b with hlt | hge
  · rw [wrapLess_of_lt hlt (by omega)]
    exact ⟨fun _ => hlt, fun _ => rfl⟩
  · rw [wrapLess_of_le hge h]
    exact ⟨fun hf => absurd hf Bool.false_ne_true, fun hlt => by omega⟩

theorem seqLeq_ack (i count : Nat) (h : i < count + 2047) (h' : count ≤ i + 2047) :
    seqLeq (i % 4096) ((count + 4095) % 4096) = true ↔ i < count := by
  have e : i % 4096 = (i + 4096) % 4096 := by omega
  have hless := seqLess_iff (a := i + 4096) (b := count + 4095) (by omega) (by omega)
  rw [seqLeq, Bool.or_eq_true, beq_iff_eq, e, hless]
  omega

/-! ## Acceptance -/

/-- What holds of a receive: its events are the data notifications and the send completions still to come, and its
sequence number is that of the batch it waits for. -/
structure SlotOk (r : Request) : Prop where
  events : ∀ d, r.events d = r.dataEvents d + r.cqes d
  seq : r.retransSeq = noSeq ∨ r.retransSeq = r.index % 4096

def World.freed (w : World) : Nat := w.batches.length - w.snd.buffer.length

/-- The two-party invariant: the receive sequence counts accepted batches only, and the sender has freed no more than it
counts. -/
structure AckSound (w : World) : Prop where
  recvSeq : w.rcv.recvSeq = w.rcv.recvCount % 4096
  counted : ∀ i < w.rcv.recvCount, i ∈ w.accepted
  accepted : ∀ i ∈ w.accepted, i < w.batches.length
  acks : ∀ a ∈ w.acks, a.count ≤ w.rcv.recvCount ∧ a.ackSeq = (a.count + 4095) % 4096
  tracked : w.snd.buffer.length ≤ w.batches.length ∧ w.snd.buffer.map (·.batch.index) = range' w.freed w.snd.buffer.length
  freed : w.freed ≤ w.rcv.recvCount
  outstanding : w.snd.buffer.length ≤ 2047
  slots : ∀ s, (w.rcv.reqs s).type = .recv → SlotOk (w.rcv.reqs s)
  complete : ∀ s, (w.rcv.reqs s).type = .recv → (w.rcv.reqs s).complete → (w.rcv.reqs s).index ∈ w.accepted
  records : ∀ i rec, w.fifo[i]? = some rec →
    ((w.rcv.reqs rec.requestSlot).type = .recv ∧ (w.rcv.reqs rec.requestSlot).index = i) ∨ i ∈ w.accepted

theorem ackSound_start (minRtoUs maxRetry : Nat) : AckSound (World.start minRtoUs maxRetry) := by
  constructor <;> simp [World.start, World.freed, Request.fresh]

variable {w' : World}

section Sound

variable {w : World}

theorem AckSound.sent_lt (h : AckSound w) : w.batches.length ≤ w.rcv.recvCount + 2047 := by
  have h1 := h.freed
  have h2 := h.outstanding
  unfold World.freed at h1
  omega

theorem AckSound.unsent_posts (h : AckSound w) (hw : Wired w) {s : Nat} (hs : (w.rcv.reqs s).type = .recv) :
    postsOf (w.fifo.drop w.batches.length) s ≤ 1 := by
  obtain ⟨rec, hrec, hslot, -, hlast⟩ := hw.live s hs
  -- a later record of the slot is the one it holds
  have hone : ∀ i rec', w.fifo[i]? = some rec' → rec'.requestSlot = s → w.batches.length ≤ i → i = (w.rcv.reqs s).index := by
    intro i rec' hi hs' hle
    rcases h.records i rec' hi with ⟨-, hidx⟩ | hacc
    · rw [hs'] at hidx
      exact hidx.symm
    · have := h.accepted i hacc
      omega
  have hzero : ∀ k, (∀ i rec', w.fifo[i]? = some rec' → rec'.requestSlot = s → w.batches.length ≤ i →
      i < w.batches.length + k → False) → postsOf ((w.fifo.drop w.batches.length).take k) s = 0 := by
    intro k hk
    refine countP_eq_zero.2 fun rec' hmem => ?_
    obtain ⟨j, hj⟩ := getElem?_of_mem hmem
    rw [getElem?_take] at hj
    split at hj
    · rename_i hjk
      rw [getElem?_drop] at hj
      intro hslot'
      exact hk _ _ hj (by simpa using hslot') (by omega) (by omega)
    · cases hj
  rcases lt_or_ge (w.rcv.reqs s).index w.batches.length with hlt | hge
  · have hall := hzero (w.fifo.drop w.batches.length).length (fun i rec' hi hs' hle _ => by
      have := hone i rec' hi hs' hle
      omega)
    rw [take_length] at hall
    omega
  · obtain ⟨k, hk⟩ : ∃ k, (w.rcv.reqs s).index = w.batches.length + k := ⟨_, (Nat.add_sub_of_le hge).symm⟩
    have hbefore := hzero k (fun i rec' hi hs' hle hlt => by
      have := hone i rec' hi hs' hle
      omega)
    have hafter : postsOf ((w.fifo.drop w.batches.length).drop (k + 1)) s = 0 := by
      rw [drop_drop, show w.batches.length + (k + 1) = (w.rcv.reqs s).index + 1 by omega]
      exact hlast
    have hsplit := postsOf_split (w.fifo.drop w.batches.length) (k + 1) s
    have htake : postsOf ((w.fifo.drop w.batches.length).take (k + 1)) s ≤ 1 := by
      rw [take_add_one, postsOf, countP_append]
      rw [postsOf] at hbefore
      have : (countP (fun x => x.requestSlot == s) ((w.fifo.drop w.batches.length)[k]?).toList) ≤ 1 :=
        countP_le_length.trans (by cases (w.fifo.drop w.batches.length)[k]? <;> simp)
      omega
    omega

/-- A message less than half the sequence space old is about the receive whose generation it matches. -/
theorem AckSound.same_batch (h : AckSound w) (hw : Wired w) {i : Nat} {b : Batch} (hb : w.batches[i]? = some b)
    (hold : w.rcv.recvCount < i + 2048)
    (hm : (w.rcv.reqs b.remoteRequestSlot).matchesGeneration b.remoteGeneration = true) :
    (w.rcv.reqs b.remoteRequestSlot).index = i := by
  have htype : (w.rcv.reqs b.remoteRequestSlot).type = .recv := by
    unfold Request.matchesGeneration at hm
    rw [Bool.and_eq_true, beq_iff_eq] at hm
    exact hm.1
  refine hw.same_batch hb hm ?_
  obtain ⟨hi, -⟩ := List.getElem?_eq_some_iff.1 hb
  have hone := h.unsent_posts hw htype
  have hsent := h.sent_lt
  have hsplit := postsOf_split (w.fifo.drop (i + 1)) (w.batches.length - (i + 1)) b.remoteRequestSlot
  rw [drop_drop, show i + 1 + (w.batches.length - (i + 1)) = w.batches.length by omega] at hsplit
  have htake : postsOf ((w.fifo.drop (i + 1)).take (w.batches.length - (i + 1))) b.remoteRequestSlot ≤
      w.batches.length - (i + 1) := by
    refine countP_le_length.trans ?_
    rw [length_take]
    omega
  unfold World.reposts
  omega

theorem Wired.matches_of_index (hw : Wired w) {i : Nat} {b : Batch} (hb : w.batches[i]? = some b)
    (htype : (w.rcv.reqs b.remoteRequestSlot).type = .recv) (hidx : (w.rcv.reqs b.remoteRequestSlot).index = i) :
    (w.rcv.reqs b.remoteRequestSlot).matchesGeneration b.remoteGeneration = true := by
  obtain ⟨rec, hrec, hslot, -, -, -, hgen, -⟩ := hw.record hb
  obtain ⟨_, -, -, -, hlast⟩ := hw.live _ htype
  unfold Request.matchesGeneration
  rw [htype, hw.generation, hgen, and_generationMask, Nat.mod_eq_of_lt (genOf_lt _), postsOf_split w.fifo (i + 1)]
  rw [hidx] at hlast
  unfold World.reposts at hlast
  rw [hlast, add_zero]
  simp

theorem AckSound.accepted_of_not_current (h : AckSound w) (hw : Wired w) {i : Nat} {b : Batch}
    (hb : w.batches[i]? = some b) (hno : ¬ ((w.rcv.reqs b.remoteRequestSlot).type = .recv ∧
      (w.rcv.reqs b.remoteRequestSlot).index = i)) : i ∈ w.accepted := by
  obtain ⟨rec, hrec, hslot, -⟩ := hw.record hb
  rcases h.records i rec hrec with hcur | hacc
  · rw [hslot] at hcur
    exact absurd hcur hno
  · exact hacc

/-! ## Receive completions -/

/-- The receiver's count after a completion: in step with the sequence number, never back, and ahead only by batches the
predicate allows. -/
structure Counts (w : World) (may : Nat → Prop) (c : RecvComm) (acks : List AckMsg) : Prop where
  recvSeq : c.recvSeq = c.recvCount % 4096
  mono : w.rcv.recvCount ≤ c.recvCount
  counted : ∀ i < c.recvCount, i ∈ w.accepted ∨ may i
  acks : ∀ a ∈ acks, a.count ≤ c.recvCount ∧ a.ackSeq = (a.count + 4095) % 4096

variable {c : RecvComm} {acks : List AckMsg}

theorem NoAck.counts (h : AckSound w) (may : Nat → Prop) (hno : NoAck w.rcv c acks) : Counts w may c acks := by
  refine ⟨by rw [hno.recvSeq, hno.recvCount, h.recvSeq], hno.recvCount.ge, fun i hi => ?_, by simp [hno.acks]⟩
  rw [hno.recvCount] at hi
  exact .inl (h.counted i hi)

theorem AckStep.counts (h : AckSound w) {may : Nat → Prop} {b : Nat}
    (hstep : AckStep w.rcv (b % 4096) c acks) (hb : b < w.batches.length) (hold : w.rcv.recvCount < b + 2048)
    (hmay : b = w.rcv.recvCount → b ∈ w.accepted ∨ may b) : Counts w may c acks := by
  have hsent := h.sent_lt
  have hnext : b % 4096 = w.rcv.recvSeq ↔ b = w.rcv.recvCount := by
    rw [h.recvSeq]
    exact ⟨fun e => wrap_inj (M := 4096) (by omega) (by omega) e, fun e => by rw [e]⟩
  have hacks : c.recvSeq = c.recvCount % 4096 → ∀ a ∈ acks, a.count ≤ c.recvCount ∧ a.ackSeq = (a.count + 4095) % 4096 := by
    intro hseq a ha
    obtain ⟨h1, h2⟩ := hstep.acks a ha
    exact ⟨h1.le, by rw [h2, h1, hseq]; omega⟩
  by_cases hR : b = w.rcv.recvCount
  · have hseq : c.recvSeq = c.recvCount % 4096 := by
      rw [hstep.recvSeq, hstep.recvCount, if_pos (hnext.2 hR), if_pos (hnext.2 hR), h.recvSeq]
      omega
    have hcount : c.recvCount = w.rcv.recvCount + 1 := by rw [hstep.recvCount, if_pos (hnext.2 hR)]
    refine ⟨hseq, by omega, fun i hi => ?_, hacks hseq⟩
    rcases lt_or_ge i w.rcv.recvCount with hlt | hge
    · exact .inl (h.counted i hlt)
    · obtain rfl : i = b := by omega
      exact hmay hR
  · have hne : ¬ b % 4096 = w.rcv.recvSeq := fun e => hR (hnext.1 e)
    have hcount : c.recvCount = w.rcv.recvCount := by rw [hstep.recvCount, if_neg hne]
    have hseq : c.recvSeq = c.recvCount % 4096 := by rw [hstep.recvSeq, hcount, if_neg hne, h.recvSeq]
    exact ⟨hseq, hcount.ge, fun i hi => .inl (h.counted i (hcount ▸ hi)), hacks hseq⟩

variable {r : Request}

theorem AckSound.receive (h : AckSound w) {s : Nat} {res : Result}
    (hreqs : c.reqs = update w.rcv.reqs s r) (htype : r.type = (w.rcv.reqs s).type)
    (hindex : r.index = (w.rcv.reqs s).index) (hslot : r.type = .recv → SlotOk r)
    (hsent : r.type = .recv → r.complete → r.index < w.batches.length)
    (hcounts : Counts w (fun i => r.type = .recv ∧ r.complete ∧ i = r.index) c acks) :
    AckSound (w.afterReceive s (res, c, acks)) := by
  have hself : c.reqs s = r := by rw [hreqs, update_self]
  have hmono : ∀ i ∈ w.accepted, i ∈ (w.afterReceive s (res, c, acks)).accepted := by
    intro i hi
    unfold World.afterReceive
    dsimp only
    split
    · exact mem_cons_of_mem _ hi
    · exact hi
  have hnew : r.type = .recv → r.complete → r.index ∈ (w.afterReceive s (res, c, acks)).accepted := by
    intro ht hc
    unfold World.afterReceive
    dsimp only
    rw [hself, if_pos ⟨ht, hc⟩]
    exact mem_cons_self
  constructor
  case recvSeq => exact hcounts.recvSeq
  case counted =>
    intro i hi
    rcases hcounts.counted i hi with hacc | ⟨ht, hc, rfl⟩
    · exact hmono i hacc
    · exact hnew ht hc
  case accepted =>
    intro i hi
    unfold World.afterReceive at hi
    dsimp only at hi
    rw [hself] at hi
    split at hi
    · rename_i hc
      rcases mem_cons.1 hi with rfl | hi
      · exact hsent hc.1 hc.2
      · exact h.accepted i hi
    · exact h.accepted i hi
  case acks =>
    intro a ha
    rcases mem_append.1 ha with ha | ha
    · obtain ⟨h1, h2⟩ := h.acks a ha
      exact ⟨h1.trans hcounts.mono, h2⟩
    · exact hcounts.acks a ha
  case tracked => exact h.tracked
  case freed => exact h.freed.trans hcounts.mono
  case outstanding => exact h.outstanding
  case slots =>
    intro t ht
    change (c.reqs t).type = .recv at ht
    change SlotOk (c.reqs t)
    by_cases hts : t = s
    · subst hts
      rw [hself] at ht ⊢
      exact hslot ht
    · rw [hreqs, update_of_ne hts] at ht ⊢
      exact h.slots t ht
  case complete =>
    intro t ht hc
    change (c.reqs t).type = .recv at ht
    change (c.reqs t).complete at hc
    change (c.reqs t).index ∈ _
    by_cases hts : t = s
    · subst hts
      rw [hself] at ht hc ⊢
      exact hnew ht hc
    · rw [hreqs, update_of_ne hts] at ht hc ⊢
      exact hmono _ (h.complete t ht hc)
  case records =>
    intro i rec hi
    change ((c.reqs rec.requestSlot).type = .recv ∧ (c.reqs rec.requestSlot).index = i) ∨ _
    rcases h.records i rec hi with hcur | hacc
    · refine .inl ?_
      by_cases hts : rec.requestSlot = s
      · rw [hts] at hcur ⊢
        rw [hself, htype, hindex]
        exact hcur
      · rw [hreqs, update_of_ne hts]
        exact hcur
    · exact .inr (hmono i hacc)

theorem AckSound.receive_same (h : AckSound w) (s : Nat) {res : Result}
    (hreqs : c.reqs = w.rcv.reqs) (hcounts : Counts w (fun _ => False) c acks) :
    AckSound (w.afterReceive s (res, c, acks)) := by
  refine h.receive (r := w.rcv.reqs s) (by rw [hreqs, update_eq_self]) rfl rfl (h.slots s)
    (fun ht hc => h.accepted _ (h.complete s ht hc)) ?_
  exact ⟨hcounts.recvSeq, hcounts.mono, fun i hi => (hcounts.counted i hi).imp_right False.elim, hcounts.acks⟩

/-- The notification that brings the last pending data event comes from a device that still waits for one, and the ACK can
be posted. -/
def LastNotificationOk (w : World) (m : Notification) (env : Env) : Prop :=
  let r := w.rcv.reqs (decodeImmData m.immData).2.1
  r.countsNotification w.rcv.recvSeq (decodeImmData m.immData).1 (decodeImmData m.immData).2.2 m.dev →
    r.pendingDataEvents = 1 → 0 < r.dataEvents m.dev ∧ env.ackPost = .success

theorem update_sub_one (f : Dev → Nat) (dev d : Dev) (h : 0 < f dev) :
    update f dev (f dev - 1) d + (if d = dev then 1 else 0) = f d := by
  by_cases hd : d = dev
  · subst hd
    rw [update_self, if_pos rfl]
    omega
  · rw [update_of_ne hd, if_neg hd]
    rfl

theorem SlotOk.countDown (h : SlotOk r) {dev : Dev} (hdev : 0 < r.dataEvents dev) :
    SlotOk (r.countDown (r.index % 4096) dev) := by
  refine ⟨fun d => ?_, .inr rfl⟩
  have he := h.events d
  have hev := h.events dev
  have h1 := update_sub_one r.events dev d (by omega)
  have h2 := update_sub_one r.dataEvents dev d hdev
  unfold Request.countDown
  dsimp only
  omega

theorem countDown_complete {seq : Nat} {dev : Dev} (hdev : 0 < r.dataEvents dev)
    (hp : r.pendingDataEvents = 1) : (r.countDown seq dev).complete := by
  left
  have h0 := update_sub_one r.dataEvents dev 0 hdev
  have h1 := update_sub_one r.dataEvents dev 1 hdev
  unfold Request.pendingDataEvents at hp ⊢
  unfold Request.countDown
  dsimp only
  rcases Fin.exists_fin_two.1 ⟨dev, rfl⟩ with rfl | rfl
  · rw [if_pos rfl] at h0
    omega
  · rw [if_pos rfl] at h1
    omega

theorem AckSound.stepNotify (h : AckSound w) (hw : Wired w) {m : Notification} (hm : m ∈ w.notes) {env : Env}
    (hold : w.rcv.recvCount < m.index + 2048) (hlast : LastNotificationOk w m env) :
    AckSound (w.afterReceive (decodeImmData m.immData).2.1 (processNotification w.rcv m env)) := by
  obtain ⟨b, hb, hd⟩ := hw.decode hm
  obtain ⟨hsent, -⟩ := List.getElem?_eq_some_iff.1 hb
  have hcases := notify_cases w.rcv m env hd
  unfold LastNotificationOk at hlast
  rw [hd] at hlast ⊢
  dsimp only at hlast ⊢
  obtain ⟨⟨res, c, acks⟩, hout⟩ : ∃ out, processNotification w.rcv m env = out := ⟨_, rfl⟩
  have hindex : (w.rcv.reqs b.remoteRequestSlot).matchesGeneration b.remoteGeneration = true →
      (w.rcv.reqs b.remoteRequestSlot).type = .recv ∧ (w.rcv.reqs b.remoteRequestSlot).index = m.index := by
    intro hmatch
    refine ⟨?_, h.same_batch hw hb hold hmatch⟩
    unfold Request.matchesGeneration at hmatch
    rw [Bool.and_eq_true, beq_iff_eq] at hmatch
    exact hmatch.1
  cases hcases with
  | idle hreqs hno => exact h.receive_same _ hreqs (NoAck.counts h _ hno)
  | old hwhy hreqs hstep =>
    refine h.receive_same _ hreqs (AckStep.counts h hstep hsent hold fun hR => .inl ?_)
    by_cases hmatch : (w.rcv.reqs b.remoteRequestSlot).matchesGeneration b.remoteGeneration = true
    · obtain ⟨htype, hidx⟩ := hindex hmatch
      rcases hwhy with hno | hless | ⟨-, hmask⟩
      · rw [hmatch] at hno
        cases hno
      · rw [h.recvSeq, seqLess_iff (by omega) hold] at hless
        omega
      · have := h.complete _ htype (.inr hmask)
        rwa [hidx] at this
    · refine h.accepted_of_not_current hw hb fun ⟨htype, hidx⟩ => hmatch ?_
      exact hw.matches_of_index hb htype hidx
  | failed hcounts hwhy hreqs hseq =>
    obtain ⟨htype, hidx⟩ := hindex hcounts.1
    have hslot := h.slots _ htype
    have hpend : (w.rcv.reqs b.remoteRequestSlot).pendingDataEvents ≠ 1 := by
      intro hp
      obtain ⟨h1, h2⟩ := hlast hcounts hp
      rcases hwhy with h0 | ⟨-, hne⟩
      · omega
      · exact hne h2
    refine h.receive hreqs rfl rfl (fun _ => ⟨hslot.events, .inr ?_⟩) (fun ht hc => ?_) (NoAck.counts h _ (hseq.2 hpend))
    · rw [hidx]
    · exact h.accepted _ (h.complete _ ht hc)
  | counted hcounts hdev hreqs hseq =>
    obtain ⟨htype, hidx⟩ := hindex hcounts.1
    have hslot := (h.slots _ htype).countDown hdev
    rw [hidx] at hslot
    refine h.receive hreqs rfl rfl (fun _ => hslot) (fun _ _ => ?_) ?_
    · change (w.rcv.reqs b.remoteRequestSlot).index < _
      rw [hidx]
      exact hsent
    · by_cases hp : (w.rcv.reqs b.remoteRequestSlot).pendingDataEvents = 1
      · refine AckStep.counts h (hseq.1 hp) hsent hold fun _ => .inr ?_
        exact ⟨htype, countDown_complete hdev hp, hidx.symm⟩
      · exact NoAck.counts h _ (hseq.2 hp)

variable {r' : Request}

theorem SlotOk.takeChunk {m : Chunk} (h : SlotOk r) (htake : r.takeChunk m = .ok r')
    (hseq : m.hdr.seq = r.index % 4096) : SlotOk r' := by
  rcases takeChunk_cases htake with rfl | ⟨-, -, rfl⟩
  · exact h
  · exact ⟨h.events, .inr hseq⟩

theorem SlotOk.dropDataEvents (h : SlotOk r) (hdrop : r.dropDataEvents = .ok r') : SlotOk r' := by
  rw [dropDataEvents_eq hdrop]
  refine ⟨fun d => ?_, h.seq⟩
  have := h.events d
  dsimp only
  omega

theorem takeChunk_type {m : Chunk} (htake : r.takeChunk m = .ok r') : r'.type = r.type ∧ r'.index = r.index := by
  rcases takeChunk_cases htake with rfl | ⟨-, -, rfl⟩ <;> exact ⟨rfl, rfl⟩

theorem AckSound.stepChunk (h : AckSound w) (hw : Wired w) {m : Chunk} (hm : m ∈ w.chunks) (env : Env)
    (hold : w.rcv.recvCount < m.index + 2048) :
    AckSound (w.afterReceive m.hdr.fields.requestSlot (processRetrans w.rcv m env)) := by
  obtain ⟨b, hb, segment, offset, s, hs, hoff, hmk⟩ := hw.chunks m hm
  obtain ⟨hsent, -⟩ := List.getElem?_eq_some_iff.1 hb
  have hf : m.hdr.fields = ⟨b.remoteRequestSlot, segment, b.nreqs, b.remoteGeneration, offset, s.size⟩ := by
    rw [hmk]
    exact hw.fields hb hs hoff
  have hseq : m.hdr.seq = m.index % 4096 := by
    rw [← (hw.posted _ b hb).2.1, hmk]
    rfl
  obtain ⟨rec, hrec, hslot, -, hn, -⟩ := hw.record hb
  have hcases := retrans_cases w.rcv m env
  obtain ⟨⟨res, c, acks⟩, hout⟩ : ∃ out, processRetrans w.rcv m env = out := ⟨_, rfl⟩
  have hcurrent : (w.rcv.reqs b.remoteRequestSlot).current m = true →
      (w.rcv.reqs b.remoteRequestSlot).type = .recv ∧ (w.rcv.reqs b.remoteRequestSlot).index = m.index ∧
      (w.rcv.reqs b.remoteRequestSlot).nreqs = b.nreqs := by
    intro hcur
    unfold Request.current at hcur
    rw [hf, Bool.and_eq_true, Bool.and_eq_true, beq_iff_eq] at hcur
    obtain ⟨⟨hmatch, hnreqs⟩, -⟩ := hcur
    refine ⟨?_, h.same_batch hw hb hold hmatch, hnreqs⟩
    unfold Request.matchesGeneration at hmatch
    rw [Bool.and_eq_true, beq_iff_eq] at hmatch
    exact hmatch.1
  have hfs : m.hdr.fields.requestSlot = b.remoteRequestSlot := by rw [hf]
  have hfn : m.hdr.fields.nreqs = b.nreqs := by rw [hf]
  cases hcases with
  | idle hreqs hno => exact h.receive_same _ hreqs (NoAck.counts h _ hno)
  | old hcur hreqs hstep =>
    rw [hseq] at hstep
    refine h.receive_same _ hreqs (AckStep.counts h hstep hsent hold fun _ => .inl ?_)
    -- the receive that waits for the batch would be current
    refine h.accepted_of_not_current hw hb fun ⟨htype, hidx⟩ => ?_
    have hmatch := hw.matches_of_index hb htype hidx
    obtain ⟨rec', hrec', -, hlen, -⟩ := hw.live _ htype
    rw [hidx, hrec] at hrec'
    cases hrec'
    have hcur' : (w.rcv.reqs b.remoteRequestSlot).current m = true := by
      unfold Request.current
      rw [hf]
      rw [hmatch, ← hlen, hn, hseq, beq_self_eq_true, Bool.and_self, Bool.true_and, Bool.or_eq_true, beq_iff_eq,
        beq_iff_eq, ← hidx]
      exact (h.slots _ htype).seq
    rw [hfs, hcur'] at hcur
    cases hcur
  | taken r hcur htake hreqs hno =>
    rw [hfs] at hcur htake hreqs ⊢
    obtain ⟨htype, hidx, -⟩ := hcurrent hcur
    obtain ⟨ht, hi⟩ := takeChunk_type htake
    refine h.receive hreqs ht hi (fun _ => ?_) (fun _ _ => ?_) (NoAck.counts h _ hno)
    · exact (h.slots _ htype).takeChunk htake (by rw [hseq, hidx])
    · rw [hi, hidx]
      exact hsent
  | completed r r' hcur htake hmask hdrop hreqs hstep =>
    rw [hfs] at hcur htake hreqs ⊢
    obtain ⟨htype, hidx, hnreqs⟩ := hcurrent hcur
    obtain ⟨ht, hi⟩ := takeChunk_type htake
    have hrn : r.nreqs = b.nreqs := ((takeChunk_keeps htake).recv (ht.trans htype)).2.2.trans hnreqs
    have hr : SlotOk r := (h.slots _ htype).takeChunk htake (by rw [hseq, hidx])
    have hr' : r'.type = r.type ∧ r'.index = r.index ∧ r'.complete ∧ SlotOk r' := by
      have hcomplete : r.complete := .inr (by rw [hmask, hfn, hrn])
      rcases hdrop with rfl | hdrop
      · exact ⟨rfl, rfl, hcomplete, hr⟩
      · refine ⟨?_, ?_, ?_, hr.dropDataEvents hdrop⟩ <;> rw [dropDataEvents_eq hdrop]
        exact .inl rfl
    obtain ⟨ht', hi', hc', hs'⟩ := hr'
    rw [hseq] at hstep
    refine h.receive hreqs (ht'.trans ht) (hi'.trans hi) (fun _ => hs') (fun _ _ => ?_) ?_
    · rw [hi', hi, hidx]
      exact hsent
    · refine AckStep.counts h hstep hsent hold fun _ => .inr ?_
      exact ⟨ht'.trans (ht.trans htype), hc', by rw [hi', hi, hidx]⟩

/-! ## The other steps -/

theorem AckSound.setReq (h : AckSound w) {s : Nat} (hslot : r.type = .recv → SlotOk r)
    (hsame : r.type = .recv → (w.rcv.reqs s).type = .recv ∧ r.index = (w.rcv.reqs s).index ∧
      (r.complete → (w.rcv.reqs s).complete))
    (hdone : r.type ≠ .recv → (w.rcv.reqs s).type = .recv → (w.rcv.reqs s).complete) :
    AckSound { w with rcv := w.rcv.setReq s r } := by
  refine ⟨h.recvSeq, h.counted, h.accepted, h.acks, h.tracked, h.freed, h.outstanding, fun t ht => ?_, fun t ht hc => ?_,
    fun i rec hi => ?_⟩
  · by_cases hts : t = s
    · subst hts
      rw [RecvComm.setReq_self] at ht ⊢
      exact hslot ht
    · dsimp only [RecvComm.setReq] at ht ⊢
      rw [update_of_ne hts] at ht ⊢
      exact h.slots t ht
  · by_cases hts : t = s
    · subst hts
      rw [RecvComm.setReq_self] at ht hc ⊢
      obtain ⟨ht', hi, hc'⟩ := hsame ht
      rw [hi]
      exact h.complete t ht' (hc' hc)
    · dsimp only [RecvComm.setReq] at ht hc ⊢
      rw [update_of_ne hts] at ht hc ⊢
      exact h.complete t ht hc
  · rcases h.records i rec hi with ⟨ht, hidx⟩ | hacc
    · by_cases hts : rec.requestSlot = s
      · rw [hts] at ht hidx ⊢
        rw [RecvComm.setReq_self]
        by_cases hr : r.type = .recv
        · exact .inl ⟨hr, (hsame hr).2.1.trans hidx⟩
        · refine .inr ?_
          have := h.complete s ht (hdone hr ht)
          rwa [hidx] at this
      · dsimp only [RecvComm.setReq]
        rw [update_of_ne hts]
        exact .inl ⟨ht, hidx⟩
    · exact .inr hacc

theorem completeMask_ne_zero {n : Nat} (h : 0 < n) (h' : n ≤ maxRecvs) : completeMask n ≠ 0 := by
  have h8 : n ≤ 8 := h'
  have hall : ∀ k < 9, 0 < k → completeMask k ≠ 0 := by decide
  exact hall n (by omega) h

theorem AckSound.stepIrecv (h : AckSound w) {buffers : List (Nat × (Nat → UInt8))} {lanes : List Dev}
    {ctsDev : Dev} (hs : w.stepIrecv buffers lanes ctsDev = some w') : AckSound w' := by
  unfold World.stepIrecv at hs
  split at hs
  · cases hs
  rename_i hargs
  split at hs
  · cases hs
  rename_i s hget
  obtain ⟨-, hunused⟩ := getRequest_spec hget
  cases hs
  obtain ⟨r, hr⟩ : ∃ r, postRecv (w.rcv.reqs s) w.fifo.length buffers lanes ctsDev = r := ⟨_, rfl⟩
  rw [hr]
  have hslot : SlotOk r := by
    rw [← hr]
    exact ⟨fun _ => rfl, .inl rfl⟩
  have hincomplete : ¬ r.complete := by
    have hpos : 0 < buffers.length := length_pos_iff.2 fun he => hargs (.inl he)
    have hmax : buffers.length ≤ maxRecvs := by omega
    rw [← hr]
    rintro (hzero | hmask)
    · obtain ⟨d, hd⟩ := exists_mem_of_ne_nil lanes fun he => hargs (.inr (.inr he))
      have hcount : 0 < lanes.count d := count_pos_iff.2 hd
      have hsum : lanes.count 0 + lanes.count 1 = 0 := hzero
      rcases Fin.exists_fin_two.1 ⟨d, rfl⟩ with rfl | rfl <;> omega
    · exact completeMask_ne_zero hpos hmax hmask.symm
  have htype : r.type = .recv := by rw [← hr]; rfl
  have hindex : r.index = w.fifo.length := by rw [← hr]; rfl
  refine ⟨h.recvSeq, h.counted, h.accepted, h.acks, h.tracked, h.freed, h.outstanding, fun t ht => ?_, fun t ht hc => ?_,
    fun i rec hi => ?_⟩
  · by_cases hts : t = s
    · subst hts
      rw [RecvComm.setReq_self]
      exact hslot
    · dsimp only [RecvComm.setReq] at ht ⊢
      rw [update_of_ne hts] at ht ⊢
      exact h.slots t ht
  · by_cases hts : t = s
    · subst hts
      rw [RecvComm.setReq_self] at hc
      exact absurd hc hincomplete
    · dsimp only [RecvComm.setReq] at ht hc ⊢
      rw [update_of_ne hts] at ht hc ⊢
      exact h.complete t ht hc
  · rcases lt_or_ge i w.fifo.length with hlt | hge
    · rw [getElem?_append_left hlt] at hi
      rcases h.records i rec hi with ⟨ht, hidx⟩ | hacc
      · have hts : rec.requestSlot ≠ s := by
          intro hts
          rw [hts, hunused] at ht
          cases ht
        dsimp only [RecvComm.setReq]
        rw [update_of_ne hts]
        exact .inl ⟨ht, hidx⟩
      · exact .inr hacc
    · rw [getElem?_append_right hge] at hi
      obtain ⟨hi0, rfl⟩ := List.getElem?_eq_some_iff.1 hi
      rw [length_singleton] at hi0
      simp only [getElem_singleton, RecvComm.setReq_self]
      exact .inl ⟨htype, by omega⟩

theorem AckSound.stepSend (h : AckSound w) {sources : List Segment} {requests : List Nat} {lanes : List Dev}
    {nowUs : Nat} (hroom : w.snd.buffer.length < 2047) (hs : w.stepSend sources requests lanes nowUs = some w') :
    AckSound w' := by
  obtain ⟨rec, b, -, hb, -, -, hw', -, hbuf⟩ := stepSend_spec hs
  have hindex : b.index = w.batches.length := by rw [hb]; rfl
  have hlen : w'.snd.buffer.length = w.snd.buffer.length + 1 := by rw [hbuf, length_append, length_singleton]
  have hbatches : w'.batches.length = w.batches.length + 1 := by rw [hw', length_append, length_singleton]
  have hfreed : w'.freed = w.freed := by
    unfold World.freed
    omega
  have hle := h.tracked.1
  constructor
  case recvSeq => rw [hw']; exact h.recvSeq
  case counted => rw [hw']; exact h.counted
  case accepted =>
    intro i hi
    rw [hw'] at hi
    have := h.accepted i hi
    omega
  case acks => rw [hw']; exact h.acks
  case tracked =>
    refine ⟨by omega, ?_⟩
    rw [hlen, hfreed, hbuf, map_append, h.tracked.2, map_singleton, hindex, range'_concat]
    congr 2
    unfold World.freed
    omega
  case freed =>
    rw [hfreed, hw']
    exact h.freed
  case outstanding => omega
  case slots => rw [hw']; exact h.slots
  case complete => rw [hw']; exact h.complete
  case records => rw [hw']; exact h.records

theorem AckSound.sends (h : AckSound w) {snd : SendComm} {sent chunks : List Chunk} (hs : Sends w.snd snd sent) :
    AckSound { w with snd := snd, chunks := chunks } := by
  have hlen : snd.buffer.length = w.snd.buffer.length := by
    have := congrArg List.length hs.batches
    rwa [length_map, length_map] at this
  have hidx : snd.buffer.map (·.batch.index) = w.snd.buffer.map (·.batch.index) := by
    have := congrArg (List.map Batch.index) hs.batches
    rwa [map_map, map_map] at this
  have hfreed : World.freed { w with snd := snd, chunks := chunks } = w.freed := by
    unfold World.freed
    rw [hlen]
  refine ⟨h.recvSeq, h.counted, h.accepted, h.acks, ?_, hfreed ▸ h.freed, hlen ▸ h.outstanding, h.slots, h.complete,
    h.records⟩
  rw [hidx, hlen, hfreed]
  exact h.tracked

theorem dropWhile_acked {es : List RetransEntry} {lo count : Nat} (hidx : es.map (·.batch.index) = range' lo es.length)
    (hseq : ∀ e ∈ es, e.batch.seq = e.batch.index % 4096) (hnew : lo < count + 2047)
    (hle : count ≤ lo + es.length) (hlen : es.length ≤ 2047) :
    es.dropWhile (fun e => seqLeq e.batch.seq ((count + 4095) % 4096)) = es.drop (count - lo) := by
  induction es generalizing lo with
  | nil => simp
  | cons e es ih =>
    rw [map_cons, length_cons, range'_succ, cons.injEq] at hidx
    rw [length_cons] at hle hlen
    have hcov := seqLeq_ack lo count (by omega) (by omega)
    rw [← hidx.1, ← hseq e mem_cons_self, hidx.1] at hcov
    rcases lt_or_ge lo count with hlt | hge
    · rw [dropWhile_cons, if_pos (hcov.2 hlt), show count - lo = (count - (lo + 1)) + 1 by omega, drop_succ_cons]
      exact ih hidx.2 (fun e' he' => hseq e' (mem_cons_of_mem _ he')) (by omega) (by omega) (by omega)
    · rw [dropWhile_cons, if_neg (fun hp => by have := hcov.1 hp; omega), show count - lo = 0 by omega, drop_zero]

theorem AckSound.stepAck (h : AckSound w) (hw : Wired w) {a : AckMsg} (ha : a ∈ w.acks) (nowUs : Nat)
    (hnew : w.freed < a.count + 2047) : AckSound { w with snd := processAck w.snd a nowUs } := by
  obtain ⟨hcount, hack⟩ := h.acks a ha
  obtain ⟨hle, hidx⟩ := h.tracked
  have hfreed := h.freed
  have hout := h.outstanding
  have hlast : ∀ i < w.rcv.recvCount, i < w.batches.length := fun i hi => h.accepted i (h.counted i hi)
  have hcov : a.count ≤ w.freed + w.snd.buffer.length := by
    have hsum : w.freed + w.snd.buffer.length = w.batches.length := by
      unfold World.freed
      omega
    rcases Nat.eq_zero_or_pos a.count with hz | hp
    · omega
    · have := hlast (a.count - 1) (by omega)
      omega
  have hseq : ∀ e ∈ w.snd.buffer, e.batch.seq = e.batch.index % 4096 := fun e he => (hw.posted _ _ (hw.tracked e he)).2.1
  have hbuf : (processAck w.snd a nowUs).buffer = w.snd.buffer.drop (a.count - w.freed) := by
    rw [processAck_buffer, hack, dropWhile_acked hidx hseq hnew hcov hout]
  have hlen : (processAck w.snd a nowUs).buffer.length = w.snd.buffer.length - (a.count - w.freed) := by
    rw [hbuf, length_drop]
  have hfree : World.freed { w with snd := processAck w.snd a nowUs } = w.freed + (a.count - w.freed) := by
    unfold World.freed at *
    dsimp only
    omega
  refine ⟨h.recvSeq, h.counted, h.accepted, h.acks, ⟨?_, ?_⟩, ?_, ?_, h.slots, h.complete, h.records⟩
  · dsimp only
    omega
  · rw [hfree, hlen, hbuf, map_drop, hidx, drop_range']
    simp
  · dsimp only
    omega
  · dsimp only
    omega

end Sound

/-! ## Runs -/

/-- Fewer than half of the sequence numbers are outstanding, a message delivered is about a batch less than half the
sequence space old, and the last data notification of a receive comes from a device that still waits for one. -/
def AckGuard (w : World) : Act → Prop
  | .send _ _ _ _ => w.snd.buffer.length < 2047
  | .notify i env => ∀ m, w.notes[i]? = some m → w.rcv.recvCount < m.index + 2048 ∧ LastNotificationOk w m env
  | .chunk i _ => ∀ m, w.chunks[i]? = some m → w.rcv.recvCount < m.index + 2048
  | .ack i _ => ∀ a, w.acks[i]? = some a → w.freed < a.count + 2047
  | _ => True

theorem AckSound.step {w : World} (h : AckSound w) (hw : Wired w) (a : Act) (hok : AckGuard w a)
    (hs : w.step a = some w') : AckSound w' := by
  cases a with
  | irecv buffers lanes ctsDev => exact h.stepIrecv hs
  | iflush devs =>
    obtain ⟨s, hunused, rfl⟩ := stepIflush_spec hs
    refine h.setReq (fun he => nomatch he) (fun he => nomatch he) fun _ ht => ?_
    rw [hunused] at ht
    cases ht
  | send sources requests lanes nowUs => exact h.stepSend hok hs
  | notify i env =>
    obtain ⟨m, hm, hi, rfl⟩ := stepNotify_spec hs
    obtain ⟨hold, hlast⟩ := hok m hi
    exact h.stepNotify hw hm hold hlast
  | chunk i env =>
    obtain ⟨m, hm, hi, rfl⟩ := stepChunk_spec hs
    exact h.stepChunk hw hm env (hok m hi)
  | ack i nowUs =>
    obtain ⟨a, ha, hi, rfl⟩ := stepAck_spec hs
    exact h.stepAck hw ha nowUs (hok a hi)
  | timeout nowUs post =>
    rw [stepTimeout_spec hs]
    exact h.sends (checkTimeout_sends hw.cursors nowUs post)
  | windowCqe failed =>
    rw [stepWindowCqe_spec hs]
    exact h.sends (completeRetransWindow_sends hw.cursors failed)
  | sendCqe s dev =>
    obtain ⟨hcqe, rfl⟩ := stepSendCqe_spec hs
    refine h.setReq (fun ht => ⟨fun d => ?_, (h.slots s ht).seq⟩) (fun ht => ⟨ht, rfl, fun hc => hc⟩)
      (fun hne ht => absurd ht hne)
    have hev := (h.slots s ht).events
    have h1 := update_sub_one (w.rcv.reqs s).events dev d (by rw [hev]; omega)
    have h2 := update_sub_one (w.rcv.reqs s).cqes dev d hcqe
    have := hev d
    dsimp only
    omega
  | test s =>
    obtain ⟨h0, h1, rfl⟩ := stepTest_spec hs
    refine h.setReq (fun he => nomatch he) (fun he => nomatch he) fun _ ht => .inl ?_
    have e0 := (h.slots s ht).events 0
    have e1 := (h.slots s ht).events 1
    unfold Request.pendingDataEvents
    omega

/-- The sender has released the batch: it was sent and no entry tracks it any more. -/
def World.Released (w : World) (i : Nat) : Prop := i < w.batches.length ∧ ∀ e ∈ w.snd.buffer, e.batch.index ≠ i

/-- **ACK safety.** In every guarded run, a batch the sender has released was accepted by the receiver, and so was every
batch before it. -/
theorem released_accepted {minRtoUs maxRetry : Nat} {w : World}
    (h : Reach World.step AckGuard (World.start minRtoUs maxRetry) w) {i : Nat} (hi : w.Released i) :
    ∀ j ≤ i, j ∈ w.accepted := by
  have hinv : Wired w ∧ AckSound w := by
    refine h.invariant (I := fun w => Wired w ∧ AckSound w)
      ⟨wired_start minRtoUs maxRetry, ackSound_start minRtoUs maxRetry⟩ ?_
    intro w w' a ⟨hw, hs⟩ hok hstep
    exact ⟨hw.step a hstep, hs.step hw a hok hstep⟩
  obtain ⟨-, hs⟩ := hinv
  obtain ⟨hlt, hno⟩ := hi
  have hfreed : i < w.freed := by
    by_contra hge
    have hmem : i ∈ w.snd.buffer.map (·.batch.index) := by
      rw [hs.tracked.2, mem_range'_1]
      unfold World.freed at *
      omega
    obtain ⟨e, he, hei⟩ := mem_map.1 hmem
    exact hno e he hei
  intro j hj
  have := hs.freed
  exact hs.counted j (by omega)

def idleEnv : Env := ⟨0, .success, .success⟩

/-- One byte over one lane: posted, sent, notified. -/
def oneTransfer : List Act := [.irecv [(1, fun _ => 0)] [0] 0, .send [⟨1, fun _ => 7⟩] [0] [0] 0]

theorem released_accepted_one_transfer : ∃ w, Reach World.step AckGuard (World.start 1 1) w ∧ w.Released 0 ∧
    0 ∈ w.accepted := by
  obtain ⟨w₁, hw₁⟩ : ∃ w, exec World.step (World.start 1 1) [.irecv [(1, fun _ => 0)] [0] 0] = some w :=
    Option.isSome_iff_exists.1 (by decide)
  obtain ⟨w₂, hw₂⟩ : ∃ w, exec World.step (World.start 1 1) oneTransfer = some w := Option.isSome_iff_exists.1 (by decide)
  obtain ⟨w₃, hw₃⟩ : ∃ w, exec World.step (World.start 1 1) (oneTransfer ++ [.notify 0 idleEnv]) = some w :=
    Option.isSome_iff_exists.1 (by decide)
  obtain ⟨w₄, hw₄⟩ : ∃ w, exec World.step (World.start 1 1) (oneTransfer ++ [.notify 0 idleEnv] ++ [.ack 0 0]) = some w :=
    Option.isSome_iff_exists.1 (by decide)
  have h₁ : (exec World.step (World.start 1 1) [.irecv [(1, fun _ => 0)] [0] 0]).map (·.snd.buffer.length) = some 0 := by
    decide
  have h₂ : (exec World.step (World.start 1 1) oneTransfer).map (fun w => ((w.rcv.reqs 0).dataEvents 0,
      w.rcv.recvCount, w.notes.map fun m => ((decodeImmData m.immData).2.1, m.dev))) = some (1, 0, [(0, 0)]) := by decide
  have h₃ : (exec World.step (World.start 1 1) (oneTransfer ++ [.notify 0 idleEnv])).map (·.freed) = some 0 := by decide
  have h₄ : (exec World.step (World.start 1 1) (oneTransfer ++ [.notify 0 idleEnv] ++ [.ack 0 0])).map (fun w =>
      (w.batches.length, w.snd.buffer.length)) = some (1, 0) := by decide
  rw [hw₁, Option.map_some, Option.some.injEq] at h₁
  rw [hw₂, Option.map_some, Option.some.injEq] at h₂
  rw [hw₃, Option.map_some, Option.some.injEq] at h₃
  rw [hw₄, Option.map_some, Option.some.injEq] at h₄
  simp only [Prod.mk.injEq] at h₂ h₄
  rw [exec_append, hw₃, Option.bind_some, exec_singleton] at hw₄
  rw [exec_append, hw₂, Option.bind_some, exec_singleton] at hw₃
  rw [oneTransfer, show [Act.irecv [(1, fun _ => 0)] [0] 0, .send [⟨1, fun _ => 7⟩] [0] [0] 0] =
    [Act.irecv [(1, fun _ => 0)] [0] 0] ++ [.send [⟨1, fun _ => 7⟩] [0] [0] 0] from rfl, exec_append, hw₁,
    Option.bind_some, exec_singleton] at hw₂
  obtain ⟨hdata, hcount, hnotes⟩ := h₂
  obtain ⟨m, hm, hslot⟩ := map_eq_singleton_iff.1 hnotes
  simp only [Prod.mk.injEq] at hslot
  have hr₁ : Reach World.step AckGuard (World.start 1 1) w₁ := .of_exec (by simp [AckGuard]) hw₁
  have hsend : AckGuard w₁ (.send [⟨1, fun _ => 7⟩] [0] [0] 0) := by
    change w₁.snd.buffer.length < 2047
    omega
  have hnotify : AckGuard w₂ (.notify 0 idleEnv) := by
    intro m' hm'
    rw [hm, getElem?_cons_zero, Option.some.injEq] at hm'
    subst hm'
    refine ⟨by omega, fun _ _ => ?_⟩
    rw [hslot.1, hslot.2, hdata]
    exact ⟨Nat.one_pos, rfl⟩
  have hack : AckGuard w₃ (.ack 0 0) := by
    intro a _
    omega
  have hr₄ := Reach.next _ (.next _ (.next _ hr₁ hsend hw₂) hnotify hw₃) hack hw₄
  have hreleased : w₄.Released 0 := by
    refine ⟨by omega, ?_⟩
    rw [length_eq_zero_iff.1 h₄.2]
    simp
  exact ⟨w₄, hr₄, hreleased, released_accepted hr₄ hreleased 0 le_rfl⟩

def HalfOutstanding (w : World) : Act → Prop
  | .send _ _ _ _ => w.snd.buffer.length < 2047
  | _ => True

/-- Two lanes: the notification of device 0 is delivered twice before the completion of its FIFO write, that of device 1 is
lost. -/
def doubleNotification : List Act := [.notify 0 idleEnv, .notify 0 idleEnv, .ack 0 0]

/-- **A notification delivered twice releases a batch that was never accepted.** -/
theorem released_unaccepted : ∃ w, Reach World.step HalfOutstanding (World.start 1 1) w ∧ w.Released 0 ∧ 0 ∉ w.accepted := by
  obtain ⟨recv, hrecv⟩ : ∃ a, Act.irecv [(1, fun _ => 0)] [0, 1] 0 = a := ⟨_, rfl⟩
  obtain ⟨send, hsend⟩ : ∃ a, Act.send [⟨1, fun _ => 7⟩] [0] [0, 1] 0 = a := ⟨_, rfl⟩
  obtain ⟨w₁, hw₁⟩ : ∃ w, exec World.step (World.start 1 1) [recv] = some w :=
    Option.isSome_iff_exists.1 (by rw [← hrecv]; decide)
  obtain ⟨w₂, hw₂⟩ : ∃ w, exec World.step (World.start 1 1) ([recv] ++ [send]) = some w :=
    Option.isSome_iff_exists.1 (by rw [← hrecv, ← hsend]; decide)
  obtain ⟨w₃, hw₃⟩ : ∃ w, exec World.step (World.start 1 1) ([recv] ++ [send] ++ doubleNotification) = some w :=
    Option.isSome_iff_exists.1 (by rw [← hrecv, ← hsend]; decide)
  have h₁ : (exec World.step (World.start 1 1) [recv]).map (·.snd.buffer.length) = some 0 := by
    rw [← hrecv]
    decide
  have h₃ : (exec World.step (World.start 1 1) ([recv] ++ [send] ++ doubleNotification)).map (fun w =>
      (w.batches.length, w.snd.buffer.length, w.accepted)) = some (1, 0, []) := by
    rw [← hrecv, ← hsend]
    decide
  rw [hw₁, Option.map_some, Option.some.injEq] at h₁
  rw [hw₃, Option.map_some, Option.some.injEq] at h₃
  simp only [Prod.mk.injEq] at h₃
  obtain ⟨hb, hl, ha⟩ := h₃
  rw [exec_append, hw₂, Option.bind_some] at hw₃
  rw [exec_append, hw₁, Option.bind_some, exec_singleton] at hw₂
  have hr₁ : Reach World.step HalfOutstanding (World.start 1 1) w₁ := .of_exec (by simp [HalfOutstanding, ← hrecv]) hw₁
  have hguard : HalfOutstanding w₁ send := by
    rw [← hsend]
    change w₁.snd.buffer.length < 2047
    omega
  have hr₃ : Reach World.step HalfOutstanding w₂ w₃ := .of_exec (by simp [HalfOutstanding, doubleNotification]) hw₃
  refine ⟨w₃, (Reach.next _ hr₁ hguard hw₂).trans hr₃, ⟨by omega, ?_⟩, ?_⟩
  · rw [length_eq_zero_iff.1 hl]
    simp
  · rw [ha]
    simp

end FlagCX.Ib
