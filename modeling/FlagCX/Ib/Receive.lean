import FlagCX.Ib.Uc

/-!
# What a receive completion changes

* `decodeImmData_encode`, `fields_chunkAt` : the receiver reads back the fields the sender packed.
* `AckStep`      : the cumulative receive sequence before and after `flagcxIbucAckSequence`.
* `notify_cases` : the outcomes of a data notification.
* `retrans_cases`: the outcomes of a retransmitted chunk.
-/

namespace FlagCX.Ib
open List Function Option

open Lib

/-! ## Packed fields -/

theorem and_seqMask (n : Nat) : n &&& seqMask = n % 4096 := Nat.and_two_pow_sub_one_eq_mod n 12

theorem and_generationMask (n : Nat) : n &&& generationMask = n % 4096 := Nat.and_two_pow_sub_one_eq_mod n 12

theorem and_byte (n : Nat) : n &&& 0xFF = n % 256 := Nat.and_two_pow_sub_one_eq_mod n 8

theorem decodeImmData_encode {slot : Nat} (hs : slot < 256) (seq generation : Nat) :
    decodeImmData (encodeImmData seq slot generation) = (seq % 4096, slot, generation % 4096) := by
  have hg : generation % 4096 < 2 ^ 12 := Nat.mod_lt _ (by decide)
  have e : encodeImmData seq slot generation = seq % 4096 * 2 ^ 20 + (generation % 4096 * 2 ^ 8 + slot) := by
    have h1 : generation % 4096 * 2 ^ 8 + slot = slot ||| (generation % 4096) <<< 8 := (or_shiftLeft hs _).symm
    have h2 : slot ||| (generation % 4096) <<< 8 < 2 ^ 20 := or_shiftLeft_lt (w := 8) (v := 12) hs hg
    rw [h1, ← or_shiftLeft h2, encodeImmData, and_seqMask, and_generationMask]
    rw [Nat.or_assoc, Nat.or_comm ((generation % 4096) <<< 8) slot, Nat.or_comm]
  rw [decodeImmData, e, and_seqMask, and_generationMask, and_byte, Nat.shiftRight_eq_div_pow, Nat.shiftRight_eq_div_pow]
  refine Prod.ext ?_ (Prod.ext ?_ ?_) <;> dsimp only <;> omega

theorem fields_chunkAt {b : Batch} {segment offset : Nat} (s : Segment) (hslot : b.remoteRequestSlot < 256)
    (hgen : b.remoteGeneration < 4096) (hn : b.nreqs < 256) (hseg : segment < 256) (hoff : offset < 2 ^ 32) :
    (chunkAt b segment offset s).hdr.fields =
      ⟨b.remoteRequestSlot, segment, b.nreqs, b.remoteGeneration, offset, s.size⟩ := by
  have himm : b.remoteRequestSlot ||| segment <<< 8 ||| b.nreqs <<< 16 =
      b.nreqs * 2 ^ 16 + (segment * 2 ^ 8 + b.remoteRequestSlot) := by
    have hlo : b.remoteRequestSlot ||| segment <<< 8 < 2 ^ 16 := or_shiftLeft_lt (w := 8) (v := 8) hslot hseg
    rw [or_shiftLeft hlo, or_shiftLeft hslot]
  have haddr : offset <<< 16 ||| b.remoteGeneration = offset * 2 ^ 16 + b.remoteGeneration := by
    rw [Nat.or_comm, or_shiftLeft (by omega)]
  unfold chunkAt RetransHdr.fields
  rw [himm, haddr, and_byte, and_byte, and_byte, and_generationMask]
  simp only [Nat.shiftRight_eq_div_pow, ChunkFields.mk.injEq, and_true]
  refine ⟨?_, ?_, ?_, ?_, ?_⟩ <;> omega

/-! ## The cumulative receive sequence -/

/-- What `flagcxIbucAckSequence` does with sequence number `seq`: the receive sequence moves past `seq` when that is next,
and an ACK sent carries the new sequence. -/
structure AckStep (c : RecvComm) (seq : Nat) (c' : RecvComm) (acks : List AckMsg) : Prop where
  recvSeq : c'.recvSeq = if seq = c.recvSeq then (c.recvSeq + 1) % 4096 else c.recvSeq
  recvCount : c'.recvCount = if seq = c.recvSeq then c.recvCount + 1 else c.recvCount
  acks : ∀ a ∈ acks, a.count = c'.recvCount ∧ a.ackSeq = (c'.recvSeq + 4095) % 4096

/-- The receive sequence stays and no ACK is sent. -/
structure NoAck (c c' : RecvComm) (acks : List AckMsg) : Prop where
  recvSeq : c'.recvSeq = c.recvSeq
  recvCount : c'.recvCount = c.recvCount
  acks : acks = []

/-- `flagcxIbucAckSequence` is called if `p` holds. -/
def AckIf (p : Prop) (c : RecvComm) (seq : Nat) (c' : RecvComm) (acks : List AckMsg) : Prop :=
  (p → AckStep c seq c' acks) ∧ (¬ p → NoAck c c' acks)

theorem AckIf.congr {p : Prop} {c c' c'' : RecvComm} {seq : Nat} {acks : List AckMsg} (h : AckIf p c seq c' acks)
    (hs : c''.recvSeq = c'.recvSeq) (hc : c''.recvCount = c'.recvCount) : AckIf p c seq c'' acks := by
  refine ⟨fun hp => ?_, fun hp => ?_⟩
  · obtain ⟨h1, h2, h3⟩ := h.1 hp
    exact ⟨hs.trans h1, hc.trans h2, by rwa [hs, hc]⟩
  · obtain ⟨h1, h2, h3⟩ := h.2 hp
    exact ⟨hs.trans h1, hc.trans h2, h3⟩

theorem nextRecvSeq_eq (c : RecvComm) (seq : Nat) :
    c.nextRecvSeq seq = if seq = c.recvSeq then (c.recvSeq + 1) % 4096 else c.recvSeq := by
  rw [RecvComm.nextRecvSeq, and_seqMask]

theorem recvPacket_ackStep (c : RecvComm) (seq nowUs : Nat) :
    AckStep c seq (recvPacket c seq nowUs).1 (recvPacket c seq nowUs).2.toList := by
  unfold recvPacket
  dsimp only
  split
  · refine ⟨nextRecvSeq_eq c seq, rfl, ?_⟩
    intro a ha
    rw [toList_some, mem_singleton] at ha
    subst ha
    refine ⟨rfl, ?_⟩
    dsimp only
    rw [and_seqMask]
    omega
  · exact ⟨nextRecvSeq_eq c seq, rfl, by simp⟩

theorem AckStep.drop {c c' : RecvComm} {seq : Nat} {acks : List AckMsg} (h : AckStep c seq c' acks) : AckStep c seq c' [] :=
  ⟨h.recvSeq, h.recvCount, by simp⟩

theorem ackSequence_ackStep (c : RecvComm) (seq : Nat) (env : Env) :
    AckStep c seq (ackSequence c seq env).2.1 (ackSequence c seq env).2.2 := by
  have h := recvPacket_ackStep c seq env.nowUs
  unfold ackSequence
  split
  · rename_i hout
    rw [hout] at h
    exact h
  · rename_i hout
    rw [hout] at h
    split
    · exact h
    · exact h.drop
    · exact h.drop

theorem ackSequence_reqs (c : RecvComm) (seq : Nat) (env : Env) : (ackSequence c seq env).2.1.reqs = c.reqs := by
  have h : (recvPacket c seq env.nowUs).1.reqs = c.reqs := by
    unfold recvPacket
    dsimp only
    split <;> rfl
  unfold ackSequence
  split
  · rename_i hout
    rwa [hout] at h
  · rename_i hout
    rw [hout] at h
    split <;> exact h

theorem ackSequence_success (c : RecvComm) (seq : Nat) {env : Env} (h : env.ackPost = .success) :
    (ackSequence c seq env).1 = .success := by
  unfold ackSequence
  split
  · rfl
  · rw [h]

/-! ## Data notifications -/

/-- The outcomes of a data notification for slot `s`. -/
inductive NotifyOutcome (c : RecvComm) (seq s generation : Nat) (dev : Dev) (env : Env) (c' : RecvComm)
    (acks : List AckMsg) : Prop
  | idle (hreqs : c'.reqs = c.reqs) (hseq : NoAck c c' acks)
  /-- The batch is done: its ACK is sent again. -/
  | old (hwhy : (c.reqs s).matchesGeneration generation = false ∨ seqLess seq c.recvSeq = true ∨
      ((c.reqs s).retransSeq = seq ∧ (c.reqs s).retransSegmentMask = completeMask (c.reqs s).nreqs))
      (hreqs : c'.reqs = c.reqs) (hseq : AckStep c seq c' acks)
  /-- The request waits for it, but the call fails after the ACK. -/
  | failed (hcounts : (c.reqs s).countsNotification c.recvSeq seq generation dev)
      (hwhy : (c.reqs s).dataEvents dev = 0 ∨ ((c.reqs s).pendingDataEvents = 1 ∧ env.ackPost ≠ .success))
      (hreqs : c'.reqs = update c.reqs s { c.reqs s with retransSeq := seq })
      (hseq : AckIf ((c.reqs s).pendingDataEvents = 1) c seq c' acks)
  | counted (hcounts : (c.reqs s).countsNotification c.recvSeq seq generation dev) (hdev : 0 < (c.reqs s).dataEvents dev)
      (hreqs : c'.reqs = update c.reqs s ((c.reqs s).countDown seq dev))
      (hseq : AckIf ((c.reqs s).pendingDataEvents = 1) c seq c' acks)

theorem notify_cases (c : RecvComm) (m : Notification) (env : Env) {seq s generation : Nat}
    (hd : decodeImmData m.immData = (seq, s, generation)) :
    NotifyOutcome c seq s generation m.dev env (processNotification c m env).2.1 (processNotification c m env).2.2 := by
  unfold processNotification
  rw [hd]
  dsimp only
  split
  · exact .idle rfl ⟨rfl, rfl, rfl⟩
  · split
    · rename_i hwhy
      exact .old (by tauto) (ackSequence_reqs c seq env) (ackSequence_ackStep c seq env)
    · split
      · rename_i hwhy
        exact .old (.inr (.inr hwhy)) (ackSequence_reqs c seq env) (ackSequence_ackStep c seq env)
      · split
        · exact .idle rfl ⟨rfl, rfl, rfl⟩
        · rename_i hmatch hdone hev
          have hcounts : (c.reqs s).countsNotification c.recvSeq seq generation m.dev := by
            refine ⟨?_, ?_, hdone, by omega⟩
            · simpa using fun h => hmatch (.inl h)
            · simpa using fun h => hmatch (.inr h)
          generalize hc₁ : c.setReq s { c.reqs s with retransSeq := seq } = c₁
          have hr₁ : c₁.reqs = update c.reqs s { c.reqs s with retransSeq := seq } := by
            rw [← hc₁]
            rfl
          -- the ACK, if any, is computed before the device's own count is checked
          generalize hout : (if (c.reqs s).pendingDataEvents = 1 then ackSequence c₁ seq env
            else (Result.success, c₁, [])) = out
          have hreqs : out.2.1.reqs = update c.reqs s { c.reqs s with retransSeq := seq } := by
            rw [← hout, ← hr₁]
            split
            · exact ackSequence_reqs c₁ seq env
            · rfl
          have hseq : AckIf ((c.reqs s).pendingDataEvents = 1) c seq out.2.1 out.2.2 := by
            rw [← hout]
            refine ⟨fun hp => ?_, fun hp => ?_⟩
            · rw [if_pos hp]
              have := ackSequence_ackStep c₁ seq env
              exact ⟨by rw [this.recvSeq, ← hc₁]; rfl, by rw [this.recvCount, ← hc₁]; rfl, this.acks⟩
            · rw [if_neg hp, ← hc₁]
              exact ⟨rfl, rfl, rfl⟩
          split
          · split
            · rename_i hdev
              exact .failed hcounts (.inl hdev) hreqs (hseq.congr rfl rfl)
            · rename_i hdev
              refine .counted hcounts (by omega) ?_ (hseq.congr rfl rfl)
              dsimp only [RecvComm.setReq] at hreqs ⊢
              rw [hreqs, update_idem]
          · rename_i hne
            refine .failed hcounts (.inr ?_) hreqs hseq
            by_cases hp : (c.reqs s).pendingDataEvents = 1
            · refine ⟨hp, fun hok => ?_⟩
              rw [if_pos hp] at hout
              have := ackSequence_success c₁ seq hok
              rw [hout] at this
              exact hne this
            · rw [if_neg hp] at hout
              exact absurd (congrArg Prod.fst hout.symm) hne

/-! ## Retransmitted chunks -/

inductive RetransOutcome (c : RecvComm) (m : Chunk) (c' : RecvComm) (acks : List AckMsg) : Prop
  | idle (hreqs : c'.reqs = c.reqs) (hseq : NoAck c c' acks) (hwhy : m.malformed ∨
      (c.reqs m.hdr.fields.requestSlot).current m = false ∨
      ∃ e, (c.reqs m.hdr.fields.requestSlot).takeChunk m = .error e)
  /-- The chunk is for no current request: its batch is done. -/
  | old (hcur : (c.reqs m.hdr.fields.requestSlot).current m = false) (hreqs : c'.reqs = c.reqs)
      (hseq : AckStep c m.hdr.seq c' acks)
  | taken (r : Request) (hcur : (c.reqs m.hdr.fields.requestSlot).current m = true)
      (htake : (c.reqs m.hdr.fields.requestSlot).takeChunk m = .ok r)
      (hreqs : c'.reqs = update c.reqs m.hdr.fields.requestSlot r) (hseq : NoAck c c' acks)
  /-- It completes its request. -/
  | completed (r r' : Request) (hcur : (c.reqs m.hdr.fields.requestSlot).current m = true)
      (htake : (c.reqs m.hdr.fields.requestSlot).takeChunk m = .ok r)
      (hmask : r.retransSegmentMask = completeMask m.hdr.fields.nreqs) (hdrop : r' = r ∨ r.dropDataEvents = .ok r')
      (hreqs : c'.reqs = update c.reqs m.hdr.fields.requestSlot r') (hseq : AckStep c m.hdr.seq c' acks)

theorem retrans_cases (c : RecvComm) (m : Chunk) (env : Env) :
    RetransOutcome c m (processRetrans c m env).2.1 (processRetrans c m env).2.2 := by
  unfold processRetrans
  dsimp only
  split
  · rename_i hbad
    exact .idle rfl ⟨rfl, rfl, rfl⟩ (.inl hbad)
  · split
    · rename_i hcur
      split
      · exact .idle rfl ⟨rfl, rfl, rfl⟩ (.inr (.inl hcur))
      · exact .old hcur (ackSequence_reqs ..) (ackSequence_ackStep ..)
    · rename_i hcur
      rw [Bool.not_eq_false] at hcur
      split
      · rename_i e herr
        exact .idle rfl ⟨rfl, rfl, rfl⟩ (.inr (.inr ⟨e, herr⟩))
      · rename_i r htake
        generalize hc₁ : c.setReq m.hdr.fields.requestSlot r = c₁
        have hr₁ : c₁.reqs = update c.reqs m.hdr.fields.requestSlot r := by
          rw [← hc₁]
          rfl
        have hno : NoAck c c₁ [] := by
          rw [← hc₁]
          exact ⟨rfl, rfl, rfl⟩
        split
        · exact .taken r hcur htake hr₁ hno
        · split
          · exact .taken r hcur htake hr₁ hno
          · rename_i hmask
            rw [ne_eq, not_not] at hmask
            have hreqs := ackSequence_reqs c₁ m.hdr.seq env
            have hstep := ackSequence_ackStep c₁ m.hdr.seq env
            have hseq : AckStep c m.hdr.seq (ackSequence c₁ m.hdr.seq env).2.1 (ackSequence c₁ m.hdr.seq env).2.2 :=
              ⟨by rw [hstep.recvSeq, hno.recvSeq], by rw [hstep.recvCount, hno.recvSeq, hno.recvCount], hstep.acks⟩
            rw [hr₁] at hreqs
            split
            · rename_i hout
              rw [hout] at hreqs hseq
              split
              · exact .completed r r hcur htake hmask (.inl rfl) hreqs ⟨hseq.recvSeq, hseq.recvCount, hseq.acks⟩
              · rename_i r' hdrop
                refine .completed r r' hcur htake hmask (.inr hdrop) ?_ ⟨hseq.recvSeq, hseq.recvCount, hseq.acks⟩
                dsimp only [RecvComm.setReq] at hreqs ⊢
                rw [hreqs, update_idem]
            · rename_i hout
              rw [hout] at hreqs hseq
              exact .completed r r hcur htake hmask (.inl rfl) hreqs hseq

end FlagCX.Ib
