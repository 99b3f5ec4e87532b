import FlagCX.Ib.Window
import FlagCX.Ib.Receive

/-!
# Receives, batches and messages of a connection

What every run keeps, however its messages are lost, delayed or repeated: FIFO record `i` names the slot and generation
of the `i`-th receive, batch `i` answers it, and every message is about a batch that was sent (`Wired`).

* `genOf`           : the generation of a slot after so many posts; it repeats after 4095 of them.
* `Wired.step`      : every step keeps `Wired`.
* `Wired.same_batch`: a slot whose generation a message matches is the one its batch answers, when the slot has been
  posted again fewer than 4095 times since.
-/

namespace FlagCX.Ib
open List Function

/-! ## Generations -/

/-- The generation of a slot that has been posted `n` times. -/
def genOf (n : Nat) : Nat := nextGeneration^[n] 0

theorem genOf_succ_eq (n : Nat) : genOf (n + 1) = nextGeneration (genOf n) := iterate_succ_apply' ..

theorem genOf_succ (n : Nat) : genOf (n + 1) = n % 4095 + 1 := by
  induction n with
  | zero => decide
  | succ n ih =>
    rw [genOf_succ_eq, ih, nextGeneration, and_generationMask]
    split <;> omega

theorem genOf_lt (n : Nat) : genOf n < 4096 := by
  cases n with
  | zero => decide
  | succ n =>
    rw [genOf_succ]
    omega

theorem genOf_inj {n k : Nat} (hn : 0 < n) (hk : k < 4095) (h : genOf (n + k) = genOf n) : k = 0 := by
  obtain ⟨n, rfl⟩ : ∃ m, n = m + 1 := ⟨n - 1, by omega⟩
  rw [show n + 1 + k = (n + k) + 1 by omega, genOf_succ, genOf_succ] at h
  omega

/-! ## The invariant -/

def postsOf (fifo : List FifoRecord) (s : Nat) : Nat := fifo.countP (·.requestSlot == s)

/-- How often a slot has been posted again since FIFO record `index`. -/
def World.reposts (w : World) (index s : Nat) : Nat := postsOf (w.fifo.drop (index + 1)) s

structure Wired (w : World) : Prop where
  records : ∀ rec ∈ w.fifo, rec.requestSlot < 256 ∧ 0 < rec.sizes.length ∧ rec.sizes.length ≤ maxRecvs
  generation : ∀ s, (w.rcv.reqs s).retransGeneration = genOf (postsOf w.fifo s)
  recordGeneration : ∀ i rec, w.fifo[i]? = some rec → rec.generation = genOf (postsOf (w.fifo.take (i + 1)) rec.requestSlot)
  live : ∀ s, (w.rcv.reqs s).type = .recv → ∃ rec, w.fifo[(w.rcv.reqs s).index]? = some rec ∧ rec.requestSlot = s ∧
    rec.sizes.length = (w.rcv.reqs s).nreqs ∧ w.reposts (w.rcv.reqs s).index s = 0
  posted : ∀ i b, w.batches[i]? = some b → b.index = i ∧ b.seq = i % 4096 ∧ (∀ s ∈ b.segments, s.size < 2 ^ 31) ∧
    ∃ rec, w.fifo[i]? = some rec ∧ b.remoteRequestSlot = rec.requestSlot ∧ b.remoteGeneration = rec.generation ∧
      b.nreqs = rec.sizes.length
  sendSeq : w.snd.sendSeq = w.batches.length % 4096
  tracked : ∀ e ∈ w.snd.buffer, w.batches[e.batch.index]? = some e.batch
  cursors : ∀ e ∈ w.snd.buffer, e.CursorOk
  chunks : ∀ m ∈ w.chunks, ∃ b, w.batches[m.index]? = some b ∧ IsChunk b m
  notes : ∀ m ∈ w.notes, ∃ b, w.batches[m.index]? = some b ∧
    m.immData = encodeImmData b.seq b.remoteRequestSlot b.remoteGeneration

theorem wired_start (minRtoUs maxRetry : Nat) : Wired (World.start minRtoUs maxRetry) := by
  constructor <;> simp [World.start, Request.fresh, postsOf, genOf]

/-! ## Lists that grow at their end -/

theorem getElem?_append_some {α : Type} {l : List α} {i : Nat} {a : α} (h : l[i]? = some a) (l' : List α) :
    (l ++ l')[i]? = some a := by
  obtain ⟨hi, -⟩ := List.getElem?_eq_some_iff.1 h
  rw [getElem?_append_left hi, h]

theorem postsOf_concat (fifo : List FifoRecord) (rec : FifoRecord) (s : Nat) :
    postsOf (fifo ++ [rec]) s = postsOf fifo s + if rec.requestSlot = s then 1 else 0 := by
  simp [postsOf]

theorem postsOf_split (fifo : List FifoRecord) (i s : Nat) :
    postsOf fifo s = postsOf (fifo.take i) s + postsOf (fifo.drop i) s := by
  rw [postsOf, postsOf, postsOf, ← countP_append, take_append_drop]

/-! ## Receiver steps -/

/-- The request is the same receive or no receive any more. -/
structure Keeps (r r' : Request) : Prop where
  generation : r'.retransGeneration = r.retransGeneration
  recv : r'.type = .recv → r.type = .recv ∧ r'.index = r.index ∧ r'.nreqs = r.nreqs

theorem Keeps.refl (r : Request) : Keeps r r := ⟨rfl, fun h => ⟨h, rfl, rfl⟩⟩

variable {s : Nat} {r : Request}

theorem Keeps.update {reqs : Nat → Request} (h : Keeps (reqs s) r) (t : Nat) : Keeps (reqs t) (update reqs s r t) := by
  by_cases ht : t = s
  · subst ht
    rwa [update_self]
  · rw [update_of_ne ht]
    exact .refl _

variable {w : World}

theorem Wired.receive (h : Wired w) {rcv : RecvComm} (hk : ∀ s, Keeps (w.rcv.reqs s) (rcv.reqs s))
    (acks : List AckMsg) (accepted : List Nat) : Wired { w with rcv := rcv, acks := acks, accepted := accepted } where
  records := h.records
  generation s := ((hk s).generation).trans (h.generation s)
  recordGeneration := h.recordGeneration
  live s hs := by
    obtain ⟨hr, hi, hn⟩ := (hk s).recv hs
    obtain ⟨rec, h1, h2, h3, h4⟩ := h.live s hr
    exact ⟨rec, hi ▸ h1, h2, h3.trans hn.symm, hi ▸ h4⟩
  posted := h.posted
  sendSeq := h.sendSeq
  tracked := h.tracked
  cursors := h.cursors
  chunks := h.chunks
  notes := h.notes

theorem takeChunk_cases {r' : Request} {m : Chunk} (h : r.takeChunk m = .ok r') :
    r' = r ∨ (m.hdr.fields.chunkOffset = r.retransSegmentBytes m.hdr.fields.segment ∧
      r.retransSegmentMask &&& 1 <<< m.hdr.fields.segment = 0 ∧ r' = r.copyChunk m) := by
  unfold Request.takeChunk at h
  dsimp only at h
  split at h
  · cases h
  · split at h
    · cases h
    · split at h
      · rename_i hat
        cases h
        exact .inr ⟨hat.1, hat.2, rfl⟩
      · cases h
        exact .inl rfl

theorem takeChunk_keeps {r' : Request} {m : Chunk} (h : r.takeChunk m = .ok r') : Keeps r r' := by
  rcases takeChunk_cases h with rfl | ⟨-, -, rfl⟩
  · exact .refl r'
  · exact ⟨rfl, fun h => ⟨h, rfl, rfl⟩⟩

theorem dropDataEvents_eq {r' : Request} (h : r.dropDataEvents = .ok r') :
    r' = { r with events := fun d => r.events d - r.dataEvents d, dataEvents := fun _ => 0 } := by
  unfold Request.dropDataEvents at h
  split at h
  · cases h
  · cases h
    rfl

variable {c : RecvComm}

theorem NotifyOutcome.keeps {c' : RecvComm} {seq generation : Nat} {dev : Dev} {env : Env} {acks : List AckMsg}
    (h : NotifyOutcome c seq s generation dev env c' acks) (t : Nat) : Keeps (c.reqs t) (c'.reqs t) := by
  cases h with
  | idle hreqs => rw [hreqs]; exact .refl _
  | old _ hreqs => rw [hreqs]; exact .refl _
  | failed _ _ hreqs | counted _ _ hreqs =>
    rw [hreqs]
    apply Keeps.update
    exact ⟨rfl, fun h => ⟨h, rfl, rfl⟩⟩

theorem RetransOutcome.keeps {c' : RecvComm} {m : Chunk} {acks : List AckMsg} (h : RetransOutcome c m c' acks)
    (t : Nat) : Keeps (c.reqs t) (c'.reqs t) := by
  cases h with
  | idle hreqs => rw [hreqs]; exact .refl _
  | old _ hreqs => rw [hreqs]; exact .refl _
  | taken r _ htake hreqs =>
    rw [hreqs]
    exact (takeChunk_keeps htake).update t
  | completed r r' _ htake _ hdrop hreqs =>
    rw [hreqs]
    have hk := takeChunk_keeps htake
    refine Keeps.update ?_ t
    rcases hdrop with rfl | hdrop
    · exact hk
    · rw [dropDataEvents_eq hdrop]
      exact ⟨hk.generation, hk.recv⟩

theorem getRequest_spec (h : getRequest c = some s) : s < 256 ∧ (c.reqs s).type = .unused := by
  have hmem := mem_of_find?_eq_some h
  have hp := find?_some h
  exact ⟨mem_range.1 hmem, by simpa using hp⟩

/-! ## Steps -/

variable {w' : World} {lanes : List Dev}

theorem Wired.stepIrecv (h : Wired w) {buffers : List (Nat × (Nat → UInt8))}
    {ctsDev : Dev} (hs : w.stepIrecv buffers lanes ctsDev = some w') : Wired w' := by
  unfold World.stepIrecv at hs
  split at hs
  · cases hs
  rename_i hargs
  split at hs
  · cases hs
  rename_i s hget
  obtain ⟨hlt, -⟩ := getRequest_spec hget
  cases hs
  have hgen : nextGeneration (w.rcv.reqs s).retransGeneration = genOf (postsOf w.fifo s + 1) := by
    rw [h.generation, ← genOf_succ_eq]
  have hpos : 0 < buffers.length := length_pos_iff.2 fun he => hargs (.inl he)
  have hmax : buffers.length ≤ maxRecvs := by omega
  constructor
  case records =>
    intro rec hrec
    rcases mem_append.1 hrec with hrec | hrec
    · exact h.records rec hrec
    · rw [mem_singleton.1 hrec]
      rw [length_map]
      exact ⟨hlt, hpos, hmax⟩
  case generation =>
    intro t
    dsimp only [RecvComm.setReq]
    rw [postsOf_concat]
    by_cases ht : t = s
    · subst ht
      rw [update_self, if_pos rfl]
      exact hgen
    · rw [update_of_ne ht, if_neg fun he => ht he.symm]
      exact h.generation t
  case recordGeneration =>
    intro i rec hi
    rcases lt_or_ge i w.fifo.length with hlt' | hge
    · rw [getElem?_append_left hlt'] at hi
      rw [take_append_of_le_length (by omega)]
      exact h.recordGeneration i rec hi
    · rw [getElem?_append_right hge] at hi
      obtain ⟨hi0, rfl⟩ := List.getElem?_eq_some_iff.1 hi
      simp only [getElem_singleton]
      rw [take_of_length_le (by rw [length_append, length_singleton]; omega), postsOf_concat, if_pos rfl]
      exact hgen
  case live =>
    intro t ht
    dsimp only [RecvComm.setReq] at ht ⊢
    by_cases hts : t = s
    · subst hts
      rw [update_self] at ht ⊢
      refine ⟨_, getElem?_concat_length .., rfl, by simp [postRecv], ?_⟩
      rw [World.reposts]
      dsimp only [postRecv]
      rw [drop_eq_nil_of_le (by rw [length_append, length_singleton])]
      rfl
    · rw [update_of_ne hts] at ht ⊢
      obtain ⟨rec, h1, h2, h3, h4⟩ := h.live t ht
      refine ⟨rec, getElem?_append_some h1 _, h2, h3, ?_⟩
      obtain ⟨hi, -⟩ := List.getElem?_eq_some_iff.1 h1
      rw [World.reposts] at h4 ⊢
      rw [drop_append_of_le_length (by omega), postsOf_concat, h4, if_neg fun he => hts he.symm]
  case posted =>
    intro i b hb
    obtain ⟨h1, h2, h3, rec, h4, h5⟩ := h.posted i b hb
    exact ⟨h1, h2, h3, rec, getElem?_append_some h4 _, h5⟩
  case sendSeq => exact h.sendSeq
  case tracked => exact h.tracked
  case cursors => exact h.cursors
  case chunks => exact h.chunks
  case notes => exact h.notes

variable {sources : List Segment} {nowUs : Nat}

theorem stepSend_spec {requests : List Nat} (hs : w.stepSend sources requests lanes nowUs = some w') :
    ∃ rec b, w.fifo[w.batches.length]? = some rec ∧ b = makeBatch w.snd w.batches.length rec sources requests ∧
      b.nreqs = rec.sizes.length ∧ (∀ s ∈ b.segments, s.size < 2 ^ 31) ∧
      w' = { w with
        snd := w'.snd
        batches := w.batches ++ [b]
        notes := w.notes ++ lanes.map fun d =>
          ⟨encodeImmData b.seq b.remoteRequestSlot b.remoteGeneration, d, b.index⟩ } ∧
      w'.snd.sendSeq = (w.snd.sendSeq + 1) % 4096 ∧
      w'.snd.buffer = w.snd.buffer ++ [⟨b, nowUs, 0, 0, 0, true⟩] := by
  unfold World.stepSend at hs
  split at hs
  · cases hs
  rename_i rec hrec
  split at hs
  · cases hs
  rename_i hlen
  dsimp only at hs
  split at hs
  · cases hs
  rename_i hsize
  split at hs
  · rename_i snd hadd
    cases hs
    unfold addBatch at hadd
    split at hadd
    · cases hadd
    · split at hadd
      · cases hadd
      · cases hadd
        refine ⟨rec, _, hrec, rfl, ?_, ?_, rfl, and_seqMask _, rfl⟩
        · rw [Batch.nreqs, makeBatch]
          rw [length_zipWith]
          omega
        · intro s hs
          by_contra hge
          exact hsize (any_eq_true.2 ⟨s, hs, decide_eq_true (by omega)⟩)
  · cases hs

theorem Wired.stepSend (h : Wired w) {requests : List Nat} (hs : w.stepSend sources requests lanes nowUs = some w') : Wired w' := by
  obtain ⟨rec, b, hrec, hb, hn, hsize, hw', hseq, hbuf⟩ := stepSend_spec hs
  have hold : ∀ {i : Nat} {b' : Batch}, w.batches[i]? = some b' → w'.batches[i]? = some b' := by
    intro i b' hi
    rw [hw']
    exact getElem?_append_some hi _
  have hnew : w'.batches[b.index]? = some b := by
    rw [hw', show b.index = w.batches.length by rw [hb]; rfl]
    exact getElem?_concat_length ..
  constructor
  case records => rw [hw']; exact h.records
  case generation => rw [hw']; exact h.generation
  case recordGeneration => rw [hw']; exact h.recordGeneration
  case live =>
    intro s hs
    rw [hw'] at hs ⊢
    exact h.live s hs
  case posted =>
    intro i b' hi
    rw [hw'] at hi ⊢
    rcases lt_or_ge i w.batches.length with hlt | hge
    · rw [getElem?_append_left hlt] at hi
      exact h.posted i b' hi
    · rw [getElem?_append_right hge] at hi
      obtain ⟨hi0, rfl⟩ := List.getElem?_eq_some_iff.1 hi
      rw [length_singleton] at hi0
      simp only [getElem_singleton]
      obtain rfl : i = w.batches.length := by omega
      refine ⟨by rw [hb]; rfl, ?_, hsize, rec, hrec, by rw [hb]; rfl, by rw [hb]; rfl, hn⟩
      rw [hb]
      exact h.sendSeq
  case sendSeq =>
    rw [hseq, h.sendSeq, hw', length_append, length_singleton]
    omega
  case tracked =>
    intro e he
    rw [hbuf] at he
    rcases mem_append.1 he with he | he
    · exact hold (h.tracked e he)
    · rw [mem_singleton.1 he]
      exact hnew
  case cursors =>
    intro e he
    rw [hbuf] at he
    rcases mem_append.1 he with he | he
    · exact h.cursors e he
    · rw [mem_singleton.1 he]
      exact b.cursorOk_zero 0
  case chunks =>
    intro m hm
    rw [hw'] at hm
    obtain ⟨b', hb', hm⟩ := h.chunks m hm
    exact ⟨b', hold hb', hm⟩
  case notes =>
    intro m hm
    rw [hw'] at hm
    rcases mem_append.1 hm with hm | hm
    · obtain ⟨b', hb', hm⟩ := h.notes m hm
      exact ⟨b', hold hb', hm⟩
    · obtain ⟨d, -, rfl⟩ := mem_map.1 hm
      exact ⟨b, hnew, rfl⟩

theorem Wired.sends (h : Wired w) {snd : SendComm} {sent : List Chunk}
    (hseq : snd.sendSeq = w.snd.sendSeq) (hbatch : ∀ e ∈ snd.buffer, ∃ e' ∈ w.snd.buffer, e'.batch = e.batch)
    (hcur : ∀ e ∈ snd.buffer, e.CursorOk) (hsent : ∀ m ∈ sent, ∃ e ∈ w.snd.buffer, IsChunk e.batch m) :
    Wired { w with snd := snd, chunks := w.chunks ++ sent } where
  records := h.records
  generation := h.generation
  recordGeneration := h.recordGeneration
  live := h.live
  posted := h.posted
  sendSeq := hseq.trans h.sendSeq
  tracked e he := by
    obtain ⟨e', he', hb⟩ := hbatch e he
    rw [← hb]
    exact h.tracked e' he'
  cursors := hcur
  chunks m hm := by
    rcases mem_append.1 hm with hm | hm
    · exact h.chunks m hm
    · obtain ⟨e, he, hm⟩ := hsent m hm
      have hi : m.index = e.batch.index := by
        obtain ⟨_, _, _, _, _, rfl⟩ := hm
        rfl
      exact ⟨e.batch, hi ▸ h.tracked e he, hm⟩
  notes := h.notes

theorem Sends.wired (h : Wired w) {snd : SendComm} {sent : List Chunk} (hs : Sends w.snd snd sent) :
    Wired { w with snd := snd, chunks := w.chunks ++ sent } := by
  refine h.sends hs.sendSeq (fun e he => ?_) hs.cursors hs.sent
  have : e.batch ∈ w.snd.buffer.map (·.batch) := hs.batches ▸ mem_map_of_mem he
  obtain ⟨e', he', hb⟩ := mem_map.1 this
  exact ⟨e', he', hb⟩

variable {i : Nat}

theorem stepNotify_spec {env : Env} (hs : w.stepNotify i env = some w') : ∃ m ∈ w.notes, w.notes[i]? = some m ∧
      w' = w.afterReceive (decodeImmData m.immData).2.1 (processNotification w.rcv m env) := by
  unfold World.stepNotify at hs
  split at hs
  · cases hs
  split at hs
  · cases hs
  rename_i m hm
  cases hs
  exact ⟨m, mem_of_getElem? hm, hm, rfl⟩

theorem stepChunk_spec {env : Env} (hs : w.stepChunk i env = some w') : ∃ m ∈ w.chunks, w.chunks[i]? = some m ∧
      w' = w.afterReceive m.hdr.fields.requestSlot (processRetrans w.rcv m env) := by
  unfold World.stepChunk at hs
  split at hs
  · cases hs
  split at hs
  · cases hs
  rename_i m hm
  cases hs
  exact ⟨m, mem_of_getElem? hm, hm, rfl⟩

theorem stepAck_spec (hs : w.stepAck i nowUs = some w') :
    ∃ a ∈ w.acks, w.acks[i]? = some a ∧ w' = { w with snd := processAck w.snd a nowUs } := by
  unfold World.stepAck at hs
  split at hs
  · cases hs
  split at hs
  · cases hs
  rename_i a ha
  cases hs
  exact ⟨a, mem_of_getElem? ha, ha, rfl⟩

theorem stepTimeout_spec {post : Nat → Result} (hs : w.stepTimeout nowUs post = some w') : w' = { w with
      snd := (checkTimeout w.snd nowUs post).1
      chunks := w.chunks ++ (checkTimeout w.snd nowUs post).2 } := by
  unfold World.stepTimeout at hs
  split at hs
  · cases hs
  cases hs
  rfl

theorem stepWindowCqe_spec {failed : Bool} (hs : w.stepWindowCqe failed = some w') :
    w' = { w with snd := completeRetransWindow w.snd failed } := by
  unfold World.stepWindowCqe at hs
  split at hs
  · cases hs
  cases hs
  rfl

theorem stepIflush_spec {devs : List Dev} (hs : w.stepIflush devs = some w') :
    ∃ s, (w.rcv.reqs s).type = .unused ∧ w' = { w with rcv := w.rcv.setReq s (postFlush (w.rcv.reqs s) devs) } := by
  unfold World.stepIflush at hs
  split at hs
  · cases hs
  rename_i s hget
  cases hs
  exact ⟨s, (getRequest_spec hget).2, rfl⟩

theorem stepSendCqe_spec {dev : Dev} (hs : w.stepSendCqe s dev = some w') :
    0 < (w.rcv.reqs s).cqes dev ∧ w' = { w with rcv := w.rcv.setReq s { w.rcv.reqs s with
      events := update (w.rcv.reqs s).events dev ((w.rcv.reqs s).events dev - 1)
      cqes := update (w.rcv.reqs s).cqes dev ((w.rcv.reqs s).cqes dev - 1) } } := by
  unfold World.stepSendCqe at hs
  dsimp only at hs
  split at hs
  · cases hs
  rename_i hno
  cases hs
  exact ⟨by omega, rfl⟩

theorem stepTest_spec (hs : w.stepTest s = some w') : (w.rcv.reqs s).events 0 = 0 ∧ (w.rcv.reqs s).events 1 = 0 ∧
      w' = { w with rcv := w.rcv.setReq s { w.rcv.reqs s with type := .unused } } := by
  unfold World.stepTest at hs
  dsimp only at hs
  split at hs
  · cases hs
  rename_i hno
  cases hs
  exact ⟨by omega, by omega, rfl⟩

/-- **Every step of a connection keeps its receives, batches and messages wired.** -/
theorem Wired.step (h : Wired w) (a : Act) (hs : w.step a = some w') : Wired w' := by
  cases a with
  | irecv buffers lanes ctsDev => exact h.stepIrecv hs
  | iflush devs =>
    obtain ⟨s, -, rfl⟩ := stepIflush_spec hs
    refine h.receive (fun t => ?_) w.acks w.accepted
    apply Keeps.update
    exact ⟨rfl, fun he => by cases he⟩
  | send sources requests lanes nowUs => exact h.stepSend hs
  | notify i env =>
    obtain ⟨m, -, -, rfl⟩ := stepNotify_spec hs
    exact h.receive (notify_cases w.rcv m env rfl).keeps _ _
  | chunk i env =>
    obtain ⟨m, -, -, rfl⟩ := stepChunk_spec hs
    exact h.receive (retrans_cases w.rcv m env).keeps _ _
  | ack i nowUs =>
    obtain ⟨a, -, -, rfl⟩ := stepAck_spec hs
    have hsub := dropWhile_sublist (l := w.snd.buffer) fun e => seqLeq e.batch.seq a.ackSeq
    rw [← processAck_buffer w.snd a nowUs] at hsub
    have hnext : Wired { w with snd := processAck w.snd a nowUs, chunks := w.chunks ++ [] } :=
      h.sends (processAck_sendSeq w.snd a nowUs) (fun e he => ⟨e, hsub.subset he, rfl⟩)
        (fun e he => h.cursors e (hsub.subset he)) (by simp)
    rwa [append_nil] at hnext
  | timeout nowUs post =>
    rw [stepTimeout_spec hs]
    exact (checkTimeout_sends h.cursors nowUs post).wired h
  | windowCqe failed =>
    rw [stepWindowCqe_spec hs]
    have := (completeRetransWindow_sends h.cursors failed).wired h
    rwa [append_nil] at this
  | sendCqe s dev =>
    obtain ⟨-, rfl⟩ := stepSendCqe_spec hs
    refine h.receive (fun t => ?_) w.acks w.accepted
    apply Keeps.update
    exact ⟨rfl, fun he => ⟨he, rfl, rfl⟩⟩
  | test s =>
    obtain ⟨-, -, rfl⟩ := stepTest_spec hs
    refine h.receive (fun t => ?_) w.acks w.accepted
    apply Keeps.update
    exact ⟨rfl, fun he => by cases he⟩

/-! ## The batch a request waits for -/

theorem Wired.index_unique {j : Nat} {rec rec' : FifoRecord} (hi : w.fifo[i]? = some rec)
    (hj : w.fifo[j]? = some rec') (hsi : rec.requestSlot = s) (hsj : rec'.requestSlot = s) (hri : w.reposts i s = 0)
    (hrj : w.reposts j s = 0) : i = j := by
  have key : ∀ {i j : Nat} {rec' : FifoRecord}, w.fifo[j]? = some rec' → rec'.requestSlot = s → w.reposts i s = 0 →
      ¬ i < j := by
    intro i j rec' hj hsj hri hlt
    have hmem : rec' ∈ w.fifo.drop (i + 1) := by
      refine mem_of_getElem? (i := j - (i + 1)) ?_
      rw [getElem?_drop, show i + 1 + (j - (i + 1)) = j by omega, hj]
    have := countP_eq_zero.1 hri rec' hmem
    simp [hsj] at this
  have h1 := key hj hsj hri
  have h2 := key hi hsi hrj
  omega

theorem Wired.record (h : Wired w) {b : Batch} (hb : w.batches[i]? = some b) :
    ∃ rec, w.fifo[i]? = some rec ∧ rec.requestSlot = b.remoteRequestSlot ∧ b.remoteRequestSlot < 256 ∧
      b.nreqs = rec.sizes.length ∧ b.nreqs ≤ 8 ∧
      b.remoteGeneration = genOf (postsOf (w.fifo.take (i + 1)) b.remoteRequestSlot) ∧
      0 < postsOf (w.fifo.take (i + 1)) b.remoteRequestSlot := by
  obtain ⟨-, -, -, rec, hrec, hslot, hgen, hn⟩ := h.posted i b hb
  obtain ⟨h1, -, h3⟩ := h.records rec (mem_of_getElem? hrec)
  have h8 : rec.sizes.length ≤ 8 := h3
  refine ⟨rec, hrec, hslot.symm, by omega, hn, by omega, ?_, ?_⟩
  · rw [hgen, hslot]
    exact h.recordGeneration i rec hrec
  · rw [postsOf, countP_pos_iff]
    refine ⟨rec, ?_, by simp [hslot]⟩
    refine mem_of_getElem? (i := i) ?_
    rw [getElem?_take_of_lt (by omega), hrec]

theorem Wired.decode (h : Wired w) {m : Notification} (hm : m ∈ w.notes) : ∃ b, w.batches[m.index]? = some b ∧
      decodeImmData m.immData = (m.index % 4096, b.remoteRequestSlot, b.remoteGeneration) := by
  obtain ⟨b, hb, himm⟩ := h.notes m hm
  obtain ⟨rec, -, -, hslot, -, -, hgen, -⟩ := h.record hb
  have hlt : b.remoteGeneration < 4096 := hgen ▸ genOf_lt _
  refine ⟨b, hb, ?_⟩
  rw [himm, decodeImmData_encode hslot, (h.posted _ b hb).2.1, Nat.mod_mod, Nat.mod_eq_of_lt hlt]

theorem Wired.fields (h : Wired w) {segment offset : Nat} {b : Batch} {s : Segment}
    (hb : w.batches[i]? = some b) (hs : b.segments[segment]? = some s) (hoff : offset = 0 ∨ offset < s.size) :
    (chunkAt b segment offset s).hdr.fields =
      ⟨b.remoteRequestSlot, segment, b.nreqs, b.remoteGeneration, offset, s.size⟩ := by
  obtain ⟨rec, -, -, hslot, -, hn, hgen, -⟩ := h.record hb
  obtain ⟨hseg, -⟩ := List.getElem?_eq_some_iff.1 hs
  have hseg' : segment < b.nreqs := hseg
  have hsize := (h.posted i b hb).2.2.1 s (mem_of_getElem? hs)
  have hlt : b.remoteGeneration < 4096 := hgen ▸ genOf_lt _
  exact fields_chunkAt s hslot hlt (by omega) (by omega) (by omega)

/-- **A receive whose generation a batch names is the one the batch answers**, unless its slot has been posted 4095 times
since. -/
theorem Wired.same_batch (h : Wired w) {b : Batch} (hb : w.batches[i]? = some b)
    (hm : (w.rcv.reqs b.remoteRequestSlot).matchesGeneration b.remoteGeneration = true)
    (hfresh : w.reposts i b.remoteRequestSlot < 4095) : (w.rcv.reqs b.remoteRequestSlot).index = i := by
  obtain ⟨rec, hrec, hslot, -, -, -, hgen, hpos⟩ := h.record hb
  unfold Request.matchesGeneration at hm
  rw [Bool.and_eq_true, beq_iff_eq, beq_iff_eq, and_generationMask, h.generation, hgen, Nat.mod_eq_of_lt (genOf_lt _)] at hm
  obtain ⟨htype, hsame⟩ := hm
  rw [postsOf_split w.fifo (i + 1)] at hsame
  have hzero := genOf_inj hpos hfresh hsame
  obtain ⟨rec', hrec', hslot', -, hlast⟩ := h.live _ htype
  exact Wired.index_unique hrec' hrec hslot' hslot hlast hzero

end FlagCX.Ib
