import Mathlib.Data.Nat.SuccPred
import FlagCX.Ib.Sends
import FlagCX.Ib.Window
import FlagCX.Lib.Tally

/-!
# The events of a send request count its holders

A send request is held by the completions it still waits for, by the retransmission entries that track its batch and by
the retransmission window that reads its buffer. `Tracked f c` says that the event counts of a communicator are `f`, the
completions owed, plus the holds of its entries and of its window; every retransmission call keeps it.
-/

namespace FlagCX.Ib
open Lib List Function

/-! ## Holding and releasing -/

def holdKeys (requests : List Nat) (dev : Dev) : List (Nat × Dev) := requests.map (·, dev)

theorem count_holdKeys (requests : List Nat) (dev d : Dev) (q : Nat) :
    (holdKeys requests dev).count (q, d) = if d = dev then requests.count q else 0 := by
  induction requests with
  | nil => simp [holdKeys]
  | cons r rs ih =>
    rw [holdKeys, map_cons, count_cons]
    change (holdKeys rs dev).count (q, d) + _ = _
    rw [ih, count_cons]
    by_cases hd : d = dev
    · subst hd
      simp
    · simp [hd, Ne.symm hd]

theorem foldl_update_apply (g : Nat → Nat) (events : Nat → Dev → Nat) (requests : List Nat) (dev : Dev) (q : Nat) (d : Dev) :
    requests.foldl (fun ev r => update ev r (update (ev r) dev (g (ev r dev)))) events q d =
      g^[(holdKeys requests dev).count (q, d)] (events q d) := by
  induction requests generalizing events with
  | nil => rfl
  | cons r rs ih =>
    rw [foldl_cons, ih, count_holdKeys, count_holdKeys, count_cons]
    by_cases hr : r = q
    · subst hr
      rw [update_self]
      by_cases hd : d = dev
      · subst hd
        simp
      · simp [hd]
    · rw [update_of_ne (Ne.symm hr)]
      simp [hr]

section

variable (events : Nat → Dev → Nat) (requests : List Nat) (dev : Dev) (q : Nat) (d : Dev)
include events requests dev q d

theorem holdRequests_apply : holdRequests events requests dev q d = events q d + (holdKeys requests dev).count (q, d) := by
  rw [holdRequests, foldl_update_apply (· + 1)]
  exact Nat.succ_iterate _ _

theorem dropRequests_apply : dropRequests events requests dev q d = events q d - (holdKeys requests dev).count (q, d) := by
  rw [dropRequests, foldl_update_apply (· - 1)]
  exact Nat.pred_iterate _ _

end

/-! ## What a communicator holds -/

def RetransEntry.keys (e : RetransEntry) : List (Nat × Dev) := holdKeys e.batch.requests e.batch.ackDevIndex

def SendComm.heldByEntries (c : SendComm) (q : Nat) (d : Dev) : Nat := tally RetransEntry.keys c.buffer (q, d)

def SendComm.heldByWindow (c : SendComm) (q : Nat) (d : Dev) : Nat :=
  (holdKeys c.retransWindowRequests c.retransWindowDevIndex).count (q, d)

/-- The events are the completions owed plus the holds of the entries and of the window. -/
structure Tracked (owed : Nat → Dev → Nat) (c : SendComm) : Prop where
  events : ∀ q d, c.events q d = owed q d + c.heldByEntries q d + c.heldByWindow q d
  window : c.outstandingRetrans = 0 ↔ c.retransWindowRequests = []
  windowNodup : c.retransWindowRequests.Nodup
  entries : ∀ e ∈ c.buffer, e.batch.requests ≠ [] ∧ e.batch.requests.Nodup

section

variable {owed : Nat → Dev → Nat} {c c' : SendComm}

theorem Tracked.congr (h : Tracked owed c) (hev : c'.events = c.events)
    (hb : c'.buffer.map (·.batch) = c.buffer.map (·.batch)) (ho : c'.outstandingRetrans = c.outstandingRetrans)
    (hw : c'.retransWindowRequests = c.retransWindowRequests) (hd : c'.retransWindowDevIndex = c.retransWindowDevIndex) :
    Tracked owed c' where
  events := by
    intro q d
    have hkeys : c'.buffer.map RetransEntry.keys = c.buffer.map RetransEntry.keys := by
      have e : ∀ l : List RetransEntry, l.map RetransEntry.keys =
          (l.map (·.batch)).map fun b => holdKeys b.requests b.ackDevIndex := by
        intro l
        rw [map_map]
        rfl
      rw [e, e, hb]
    have hent : c'.heldByEntries q d = c.heldByEntries q d := tally_congr hkeys
    have hwin : c'.heldByWindow q d = c.heldByWindow q d := by rw [SendComm.heldByWindow, hw, hd, SendComm.heldByWindow]
    rw [hev, hent, hwin]
    exact h.events q d
  window := by
    rw [ho, hw]
    exact h.window
  windowNodup := by
    rw [hw]
    exact h.windowNodup
  entries := by
    intro e he
    have hmem : e.batch ∈ c'.buffer.map (·.batch) := mem_map_of_mem he
    rw [hb] at hmem
    obtain ⟨e', he', heq⟩ := mem_map.1 hmem
    rw [← heq]
    exact h.entries e' he'

variable {b : Batch}

theorem Tracked.addBatch (h : Tracked owed c) (hb : b.requests ≠ [] ∧ b.requests.Nodup) (nowUs : Nat) :
    Tracked owed (addBatch c b nowUs).2 := by
  unfold Ib.addBatch
  split_ifs with h1 h2
  · exact h
  · exact h
  · refine ⟨?_, h.window, h.windowNodup, ?_⟩
    · intro q d
      have hnew : tally RetransEntry.keys (c.buffer ++ [⟨b, nowUs, 0, 0, 0, true⟩]) (q, d) =
          c.heldByEntries q d + (holdKeys b.requests b.ackDevIndex).count (q, d) := by
        rw [tally_append, tally_cons, tally_nil]
        rfl
      change holdRequests c.events b.requests b.ackDevIndex q d = owed q d + tally _ _ _ + c.heldByWindow q d
      rw [holdRequests_apply, h.events, hnew]
      omega
    · intro e he
      rcases mem_append.1 he with he | he
      · exact h.entries e he
      · rw [mem_singleton.1 he]
        exact hb

theorem Tracked.freeAcked (ackSeq : Nat) {es : List RetransEntry} (h : Tracked owed { c with buffer := es }) :
    Tracked owed (freeAcked ackSeq c es) := by
  induction es generalizing c with
  | nil => exact h
  | cons e es ih =>
    rw [Ib.freeAcked]
    split_ifs with hle
    · apply ih
      refine ⟨?_, h.window, h.windowNodup, fun e' he' => h.entries e' (mem_cons_of_mem e he')⟩
      intro q d
      have hev := h.events q d
      have hsplit : ({ c with buffer := e :: es } : SendComm).heldByEntries q d =
          e.keys.count (q, d) + tally RetransEntry.keys es (q, d) := tally_cons e
      rw [hsplit] at hev
      change dropRequests c.events e.batch.requests e.batch.ackDevIndex q d = owed q d + tally _ es _ + c.heldByWindow q d
      rw [dropRequests_apply]
      change c.events q d - e.keys.count (q, d) = _
      change c.events q d = owed q d + _ + c.heldByWindow q d at hev
      omega
    · exact h

theorem Tracked.processAck (h : Tracked owed c) (ack : AckMsg) (nowUs : Nat) : Tracked owed (processAck c ack nowUs) := by
  unfold Ib.processAck
  apply Tracked.freeAcked
  split_ifs
  · exact ⟨h.events, h.window, h.windowNodup, h.entries⟩
  · exact h

theorem completeRetransWindow_cases (c : SendComm) (failed : Bool) :
    (c.outstandingRetrans = 0 ∧
      completeRetransWindow c failed = { c with asyncResult := recordCommError c.asyncResult .internalError }) ∨
    (1 < c.outstandingRetrans ∧ failed = false ∧
      completeRetransWindow c failed = { c with outstandingRetrans := c.outstandingRetrans - 1 }) ∨
    (0 < c.outstandingRetrans ∧ (failed = false → c.outstandingRetrans = 1) ∧
      completeRetransWindow c failed = { c with
        outstandingRetrans := 0
        events := dropRequests c.events c.retransWindowRequests c.retransWindowDevIndex
        retransWindowRequests := []
        asyncResult := if failed then recordCommError c.asyncResult .remoteError else c.asyncResult }) := by
  unfold completeRetransWindow
  by_cases h0 : c.outstandingRetrans = 0
  · rw [if_pos h0]
    exact .inl ⟨h0, rfl⟩
  rw [if_neg h0]
  cases failed with
  | true => exact .inr (.inr ⟨by omega, by simp, rfl⟩)
  | false =>
    by_cases h1 : c.outstandingRetrans = 1
    · refine .inr (.inr ⟨by omega, fun _ => h1, ?_⟩)
      rw [h1]
      rfl
    · refine .inr (.inl ⟨by omega, rfl, ?_⟩)
      have hpos : 0 < c.outstandingRetrans - 1 := by omega
      simp only [Bool.false_eq_true, if_false, if_pos hpos]

theorem Tracked.windowCompletes (h : Tracked owed c) (failed : Bool) : Tracked owed (completeRetransWindow c failed) := by
  obtain ⟨-, hc⟩ | ⟨h1, -, hc⟩ | ⟨h1, -, hc⟩ := completeRetransWindow_cases c failed
  · rw [hc]
    exact ⟨h.events, h.window, h.windowNodup, h.entries⟩
  · rw [hc]
    have hne : c.retransWindowRequests ≠ [] := fun hw => absurd (h.window.2 hw) (by omega)
    exact ⟨h.events, ⟨fun hz => absurd hz (Nat.sub_ne_zero_of_lt h1), fun hw => absurd hw hne⟩, h.windowNodup, h.entries⟩
  · rw [hc]
    refine ⟨?_, ⟨fun _ => rfl, fun _ => rfl⟩, nodup_nil, h.entries⟩
    intro q d
    have hev := h.events q d
    change dropRequests c.events c.retransWindowRequests c.retransWindowDevIndex q d = owed q d + c.heldByEntries q d + 0
    rw [dropRequests_apply]
    change c.events q d - c.heldByWindow q d = _
    omega

theorem dropRequests_le (events : Nat → Dev → Nat) (requests : List Nat) (dev : Dev) (q : Nat) (d : Dev) :
    dropRequests events requests dev q d ≤ events q d := by
  rw [dropRequests_apply]
  exact Nat.sub_le _ _

theorem freeAcked_events_le (ackSeq : Nat) (c : SendComm) (es : List RetransEntry) (q : Nat) (d : Dev) :
    (freeAcked ackSeq c es).events q d ≤ c.events q d := by
  induction es generalizing c with
  | nil => exact le_rfl
  | cons e es ih =>
    rw [freeAcked]
    split_ifs
    · exact (ih _).trans (dropRequests_le _ _ _ _ _)
    · exact le_rfl

theorem processAck_events_le (c : SendComm) (ack : AckMsg) (nowUs q : Nat) (d : Dev) :
    (processAck c ack nowUs).events q d ≤ c.events q d := by
  unfold processAck
  dsimp only
  split_ifs
  · exact freeAcked_events_le _ _ _ _ _
  · exact freeAcked_events_le _ _ _ _ _

theorem freeAcked_outstanding (ackSeq : Nat) (c : SendComm) (es : List RetransEntry) :
    (freeAcked ackSeq c es).outstandingRetrans = c.outstandingRetrans := by
  induction es generalizing c with
  | nil => rfl
  | cons e es ih =>
    rw [freeAcked]
    split_ifs
    · exact ih _
    · rfl

theorem processAck_outstanding (c : SendComm) (ack : AckMsg) (nowUs : Nat) :
    (processAck c ack nowUs).outstandingRetrans = c.outstandingRetrans := by
  unfold processAck
  rw [freeAcked_outstanding]
  split_ifs <;> rfl

theorem completeRetransWindow_events_le (c : SendComm) (failed : Bool) (q : Nat) (d : Dev) :
    (completeRetransWindow c failed).events q d ≤ c.events q d := by
  obtain ⟨-, hc⟩ | ⟨-, -, hc⟩ | ⟨-, -, hc⟩ := completeRetransWindow_cases c failed
  · rw [hc]
  · rw [hc]
  · rw [hc]
    exact dropRequests_le _ _ _ _ _

/-! ## Holders, one by one -/

theorem mem_holdKeys {requests : List Nat} {dev d : Dev} {q : Nat} :
    (q, d) ∈ holdKeys requests dev ↔ q ∈ requests ∧ dev = d := by
  simp [holdKeys]

theorem nodup_holdKeys {requests : List Nat} (h : requests.Nodup) (dev : Dev) : (holdKeys requests dev).Nodup :=
  h.map fun _ _ he => (Prod.mk.injEq _ _ _ _ ▸ he).1

def SendComm.entriesHolding (c : SendComm) (q : Nat) (d : Dev) : Nat :=
  c.buffer.countP fun e => decide (q ∈ e.batch.requests ∧ e.batch.ackDevIndex = d)

/-- The active window, if it references the request through the device. -/
def SendComm.windowHolding (c : SendComm) (q : Nat) (d : Dev) : Nat :=
  if q ∈ c.retransWindowRequests ∧ c.retransWindowDevIndex = d then 1 else 0

section

variable (h : Tracked owed c) (q : Nat) (d : Dev)
include h q d

theorem Tracked.heldByEntries_eq : c.heldByEntries q d = c.entriesHolding q d := by
  have hnodup : ∀ e ∈ c.buffer, e.keys.Nodup := fun e he => nodup_holdKeys (h.entries e he).2 _
  rw [SendComm.heldByEntries, tally_eq_countP hnodup, SendComm.entriesHolding]
  apply countP_congr
  intro e _
  rw [elem_iff, decide_eq_true_iff]
  exact mem_holdKeys

theorem Tracked.heldByWindow_eq : c.heldByWindow q d = c.windowHolding q d := by
  rw [SendComm.heldByWindow, SendComm.windowHolding]
  split_ifs with hmem
  · exact count_eq_one_of_mem (nodup_holdKeys h.windowNodup _) (mem_holdKeys.2 hmem)
  · exact count_eq_zero.2 fun hkey => hmem (mem_holdKeys.1 hkey)

theorem Tracked.events_eq : c.events q d = owed q d + c.entriesHolding q d + c.windowHolding q d := by
  rw [h.events, h.heldByEntries_eq, h.heldByWindow_eq]

end

/-! ## Retransmission windows -/

section

variable (h : Tracked owed c) (hb : b ∈ c.buffer.map (·.batch))
include h hb

theorem Tracked.of_mem : b.requests ≠ [] ∧ b.requests.Nodup := by
  obtain ⟨e, he, rfl⟩ := mem_map.1 hb
  exact h.entries e he

theorem Tracked.named_pos {q : Nat} (hq : q ∈ b.requests) : 0 < c.events q b.ackDevIndex := by
  obtain ⟨e, he, rfl⟩ := mem_map.1 hb
  have hkey : (q, e.batch.ackDevIndex) ∈ e.keys := mem_map_of_mem hq
  have hpos : 0 < c.heldByEntries q e.batch.ackDevIndex := tally_pos he hkey
  rw [h.events]
  omega

theorem Tracked.acceptChunk : Tracked owed (acceptChunk c b) := by
  unfold Ib.acceptChunk
  split_ifs with hw
  · obtain ⟨hne, hnodup⟩ := h.of_mem hb
    refine ⟨?_, ⟨fun hz => absurd hz (Nat.succ_ne_zero _), fun hn => absurd hn hne⟩, hnodup, h.entries⟩
    intro q d
    have hev := h.events q d
    have hnone : c.heldByWindow q d = 0 := by
      rw [SendComm.heldByWindow, hw]
      rfl
    change holdRequests c.events b.requests b.ackDevIndex q d =
      owed q d + c.heldByEntries q d + (holdKeys b.requests b.ackDevIndex).count (q, d)
    rw [holdRequests_apply, hev, hnone, add_zero]
  · exact ⟨h.events, ⟨fun hz => absurd hz (Nat.succ_ne_zero _), fun hn => absurd hn hw⟩, h.windowNodup, h.entries⟩

theorem Tracked.acceptChunk_idle {q : Nat} (hq : ∀ d, c.events q d = 0) (d : Dev) : (Ib.acceptChunk c b).events q d = 0 := by
  unfold Ib.acceptChunk
  split_ifs
  · change holdRequests c.events b.requests b.ackDevIndex q d = 0
    have hnot : q ∉ b.requests := by
      intro hmem
      have := h.named_pos hb hmem
      rw [hq] at this
      exact lt_irrefl 0 this
    rw [holdRequests_apply, hq, count_holdKeys, count_eq_zero.2 hnot, ite_self]
  · exact hq d

end

/-- What retransmission changes: the cursors of the entries, and the window by one chunk for each it posts. -/
structure Resends (owed : Nat → Dev → Nat) (c c' : SendComm) (sent : List Chunk) : Prop where
  tracked : Tracked owed c'
  outstanding : c'.outstandingRetrans = c.outstandingRetrans + sent.length
  asyncResult : c'.asyncResult = c.asyncResult
  batches : c'.buffer.map (·.batch) = c.buffer.map (·.batch)
  idle : ∀ q, (∀ d, c.events q d = 0) → ∀ d, c'.events q d = 0

theorem Resends.refl (h : Tracked owed c) : Resends owed c c [] := ⟨h, rfl, rfl, rfl, fun _ hq => hq⟩

theorem acceptChunk_outstanding (c : SendComm) (b : Batch) :
    (acceptChunk c b).outstandingRetrans = c.outstandingRetrans + 1 := by
  unfold acceptChunk
  split_ifs <;> rfl

theorem acceptChunk_asyncResult (c : SendComm) (b : Batch) : (acceptChunk c b).asyncResult = c.asyncResult := by
  unfold acceptChunk
  split_ifs <;> rfl

theorem Resends.acceptChunk (h : Tracked owed c) (hb : b ∈ c.buffer.map (·.batch)) (m : Chunk) :
    Resends owed c (acceptChunk c b) [m] where
  tracked := h.acceptChunk hb
  outstanding := acceptChunk_outstanding c b
  asyncResult := acceptChunk_asyncResult c b
  batches := by rw [acceptChunk_buffer]
  idle := fun _ hq => h.acceptChunk_idle hb hq

theorem Resends.trans {c'' : SendComm} {sent sent' : List Chunk} (h : Resends owed c c' sent)
    (h' : Resends owed c' c'' sent') : Resends owed c c'' (sent ++ sent') where
  tracked := h'.tracked
  outstanding := by
    rw [h'.outstanding, h.outstanding, length_append]
    omega
  asyncResult := h'.asyncResult.trans h.asyncResult
  batches := h'.batches.trans h.batches
  idle := fun q hq => h'.idle q (h.idle q hq)

theorem Resends.congr {c'' : SendComm} {sent : List Chunk} (h : Resends owed c c' sent) (hev : c''.events = c'.events)
    (hb : c''.buffer.map (·.batch) = c'.buffer.map (·.batch)) (ho : c''.outstandingRetrans = c'.outstandingRetrans)
    (hw : c''.retransWindowRequests = c'.retransWindowRequests)
    (hd : c''.retransWindowDevIndex = c'.retransWindowDevIndex) (ha : c''.asyncResult = c'.asyncResult) :
    Resends owed c c'' sent where
  tracked := h.tracked.congr hev hb ho hw hd
  outstanding := ho.trans h.outstanding
  asyncResult := ha.trans h.asyncResult
  batches := hb.trans h.batches
  idle := by
    rw [hev]
    exact h.idle

variable {e : RetransEntry}

section

variable (h : Tracked owed c)
include h

theorem postWindow_resends (post : Nat → Result) (wrs : List WindowWr) (i : Nat) (he : e.batch ∈ c.buffer.map (·.batch))
    (sent : List Chunk) : let out := postWindow post wrs i c e sent
    out.2.1.buffer = c.buffer ∧ out.2.2.1.batch = e.batch ∧
      ∃ posted, out.2.2.2 = sent ++ posted ∧ Resends owed c out.2.1 posted := by
  induction wrs generalizing i c e sent with
  | nil => exact ⟨rfl, rfl, [], (append_nil _).symm, .refl h⟩
  | cons wr wrs ih =>
    rw [postWindow]
    split
    · have hfirst := Resends.acceptChunk h he wr.chunk
      obtain ⟨hbuf, hbatch, posted, hsent, hrest⟩ := ih (e := e.advance wr) hfirst.tracked (i + 1)
        (by rw [hfirst.batches]; exact he) (sent ++ [wr.chunk])
      rw [acceptChunk_buffer] at hbuf
      refine ⟨hbuf, hbatch, wr.chunk :: posted, ?_, hfirst.trans hrest⟩
      rw [hsent, append_assoc, singleton_append]
    · exact ⟨rfl, rfl, [], (append_nil _).symm, .refl h⟩
    · exact ⟨rfl, rfl, [], (append_nil _).symm, .refl h⟩

theorem resendEntry_resends (he : e.batch ∈ c.buffer.map (·.batch)) (nowUs : Nat) (post : Nat → Result) :
    let out := resendEntry c e nowUs post
    out.2.1.buffer = c.buffer ∧ out.2.2.1.batch = e.batch ∧ Resends owed c out.2.1 out.2.2.2 := by
  unfold resendEntry
  split
  · exact ⟨rfl, rfl, .refl h⟩
  · split
    · exact ⟨rfl, rfl, .refl h⟩
    · exact ⟨rfl, rfl, .refl h⟩
    · rename_i wrs _ _
      obtain ⟨hbuf, hbatch, posted, hsent, hres⟩ := postWindow_resends h post wrs 0 he []
      rw [nil_append] at hsent
      rw [← hsent] at hres
      split
      all_goals
        rename_i hout
        rw [hout] at hbuf hbatch hres
        exact ⟨hbuf, hbatch, hres⟩

theorem resendViaSend_resends (seq nowUs : Nat) (post : Nat → Result) :
    Resends owed c (resendViaSend c seq nowUs post).2.1 (resendViaSend c seq nowUs post).2.2 := by
  unfold resendViaSend
  split
  · exact .refl h
  · split
    · exact .refl h
    · rename_i e he
      have hmem : e.batch ∈ c.buffer.map (·.batch) := mem_map_of_mem (mem_of_getElem? he)
      obtain ⟨hbuf, hbatch, hres⟩ := resendEntry_resends h hmem nowUs post
      have hset := map_set_batch he hbatch
      exact hres.congr rfl (hset.trans (by rw [hbuf])) rfl rfl rfl rfl

theorem restart_resends {idx : Nat} (he : c.buffer[idx]? = some e) (seq nowUs : Nat) (post : Nat → Result) :
    let out := resendViaSend { c with buffer := c.buffer.set idx e.restart } seq nowUs post
    Resends owed c out.2.1 out.2.2 := by
  have hbatch := map_set_batch he (show e.restart.batch = e.batch from rfl)
  have hset : Resends owed c { c with buffer := c.buffer.set idx e.restart } [] :=
    (Resends.refl h).congr rfl hbatch rfl rfl rfl rfl
  exact hset.trans (resendViaSend_resends hset.tracked seq nowUs post)

theorem checkTimeoutFrom_resends (nowUs : Nat) (post : Nat → Result) (n idx : Nat) :
    let out := checkTimeoutFrom c nowUs post n idx
    Resends owed c out.2.1 out.2.2 := by
  induction n generalizing idx with
  | zero => exact .refl h
  | succ n ih =>
    rw [checkTimeoutFrom]
    split
    · exact .refl h
    · rename_i e he
      split_ifs
      · have hs := resendViaSend_resends h e.batch.seq nowUs post
        split
        · rename_i hout
          rw [hout] at hs
          exact hs
        · exact hs
      · exact .refl h
      · exact .refl h
      · have hs := restart_resends h he e.batch.seq nowUs post
        split
        · rename_i hout
          rw [hout] at hs
          exact hs.congr rfl rfl rfl rfl rfl rfl
        · rename_i hout
          rw [hout] at hs
          exact hs
        · exact hs
      · exact ih (idx + 1)

end

/-- One call that adds or retires an entry or a window. -/
inductive RetransCall (c : SendComm) : SendComm → Prop
  | addBatch (b : Batch) (nowUs : Nat) (hb : b.requests ≠ [] ∧ b.requests.Nodup) : RetransCall c (addBatch c b nowUs).2
  | processAck (ack : AckMsg) (nowUs : Nat) : RetransCall c (processAck c ack nowUs)
  | checkTimeout (nowUs : Nat) (post : Nat → Result) : RetransCall c (checkTimeout c nowUs post).1
  | completeRetransWindow (failed : Bool) : RetransCall c (completeRetransWindow c failed)

theorem Tracked.call (h : Tracked owed c) (hcall : RetransCall c c') : Tracked owed c' := by
  cases hcall with
  | addBatch b nowUs hb => exact h.addBatch hb nowUs
  | processAck ack nowUs => exact h.processAck ack nowUs
  | completeRetransWindow failed => exact h.windowCompletes failed
  | checkTimeout nowUs post =>
    have hres := checkTimeoutFrom_resends h nowUs post c.buffer.length 0
    unfold Ib.checkTimeout
    split
    · rename_i hout
      rw [hout] at hres
      exact hres.tracked
    · rename_i hout
      rw [hout] at hres
      exact hres.tracked.congr rfl rfl rfl rfl rfl

end

end FlagCX.Ib
