import FlagCX.Ib.Retrans

/-!
# What the sender's calls change

* `IsChunk` : a chunk of a batch, cut at an offset a window can start at.
* `Sends`   : a call keeps the tracked batches and posts only chunks of them; `checkTimeout_sends`.
* `freeAcked_buffer` : an ACK drops the entries it covers from the head on.
-/

namespace FlagCX.Ib
open List

def Batch.CursorOk (b : Batch) (segment offset : Nat) : Prop :=
  ∀ s, b.segments[segment]? = some s → offset = 0 ∨ offset < s.size

/-- `m` is the chunk of one of the batch's segments at some offset. -/
def IsChunk (b : Batch) (m : Chunk) : Prop :=
  ∃ segment offset s, b.segments[segment]? = some s ∧ (offset = 0 ∨ offset < s.size) ∧ m = chunkAt b segment offset s

def RetransEntry.CursorOk (e : RetransEntry) : Prop := e.batch.CursorOk e.retransSegment e.retransOffset

theorem Batch.cursorOk_zero (b : Batch) (segment : Nat) : b.CursorOk segment 0 := fun _ _ => .inl rfl

theorem chunkAt_size_le (b : Batch) (segment : Nat) {offset : Nat} {s : Segment} (h : offset ≤ s.size) :
    offset + (chunkAt b segment offset s).hdr.size ≤ s.size := by
  unfold chunkAt
  dsimp only
  split <;> omega

/-! ## Windows -/

theorem buildWindow_spec {b : Batch} {depth segment offset : Nat} {wrs : List WindowWr} (h : b.CursorOk segment offset)
    (hw : buildWindow b depth segment offset = .ok wrs) :
    ∀ wr ∈ wrs, IsChunk b wr.chunk ∧ b.CursorOk wr.nextSegment wr.nextOffset := by
  induction depth generalizing segment offset wrs with
  | zero =>
    cases hw
    simp
  | succ depth ih =>
    rw [buildWindow] at hw
    split at hw
    · cases hw
      simp
    · rename_i s hs
      have hoff := h s hs
      rw [if_neg (by omega)] at hw
      dsimp only at hw
      have hchunk : IsChunk b (chunkAt b segment offset s) := ⟨segment, offset, s, hs, hoff, rfl⟩
      have hle : offset + (chunkAt b segment offset s).hdr.size ≤ s.size := chunkAt_size_le b segment (by omega)
      -- the rest of the window is built from a cursor that is ok again
      have rest : ∀ segment' offset', b.CursorOk segment' offset' →
          (buildWindow b depth segment' offset').map (WindowWr.mk (chunkAt b segment offset s) segment' offset' :: ·) =
            .ok wrs →
          ∀ wr ∈ wrs, IsChunk b wr.chunk ∧ b.CursorOk wr.nextSegment wr.nextOffset := by
        intro segment' offset' hok hmap
        cases hb : buildWindow b depth segment' offset' with
        | error r =>
          rw [hb] at hmap
          cases hmap
        | ok wrs' =>
          rw [hb] at hmap
          cases hmap
          intro wr hwr
          rcases mem_cons.1 hwr with rfl | hwr
          · exact ⟨hchunk, hok⟩
          · exact ih hok hb wr hwr
      split at hw
      · exact rest _ _ (b.cursorOk_zero _) hw
      · refine rest _ _ ?_ hw
        intro s' hs'
        rw [hs] at hs'
        cases hs'
        omega

theorem acceptChunk_buffer (c : SendComm) (b : Batch) : (acceptChunk c b).buffer = c.buffer := by
  unfold acceptChunk
  split <;> rfl

theorem acceptChunk_sendSeq (c : SendComm) (b : Batch) : (acceptChunk c b).sendSeq = c.sendSeq := by
  unfold acceptChunk
  split <;> rfl

theorem postWindow_spec (post : Nat → Result) {b : Batch} {wrs : List WindowWr}
    (hwrs : ∀ wr ∈ wrs, IsChunk b wr.chunk ∧ b.CursorOk wr.nextSegment wr.nextOffset) (i : Nat) (c : SendComm)
    (e : RetransEntry) (sent : List Chunk) (hb : e.batch = b) (he : e.CursorOk) (hsent : ∀ m ∈ sent, IsChunk b m) :
    let out := postWindow post wrs i c e sent
    out.2.1.buffer = c.buffer ∧ out.2.1.sendSeq = c.sendSeq ∧ out.2.2.1.batch = b ∧ out.2.2.1.CursorOk ∧
      ∀ m ∈ out.2.2.2, IsChunk b m := by
  induction wrs generalizing i c e sent with
  | nil => exact ⟨rfl, rfl, hb, he, hsent⟩
  | cons wr wrs ih =>
    obtain ⟨hchunk, hnext⟩ := hwrs wr mem_cons_self
    have hstop : c.buffer = c.buffer ∧ c.sendSeq = c.sendSeq ∧ e.batch = b ∧ e.CursorOk ∧ ∀ m ∈ sent, IsChunk b m :=
      ⟨rfl, rfl, hb, he, hsent⟩
    rw [postWindow]
    split
    · have hstep := ih (fun wr' h => hwrs wr' (mem_cons_of_mem _ h)) (i + 1) (acceptChunk c e.batch) (e.advance wr)
        (sent ++ [wr.chunk]) hb (by rw [RetransEntry.CursorOk]; exact hb ▸ hnext) (by
          intro m hm
          rcases mem_append.1 hm with hm | hm
          · exact hsent m hm
          · rw [mem_singleton.1 hm]
            exact hchunk)
      rw [acceptChunk_buffer, acceptChunk_sendSeq] at hstep
      exact hstep
    · exact hstop
    · exact hstop

theorem resendEntry_spec (c : SendComm) (e : RetransEntry) (nowUs : Nat) (post : Nat → Result) (he : e.CursorOk) :
    let out := resendEntry c e nowUs post
    out.2.1.buffer = c.buffer ∧ out.2.1.sendSeq = c.sendSeq ∧ out.2.2.1.batch = e.batch ∧ out.2.2.1.CursorOk ∧
      ∀ m ∈ out.2.2.2, IsChunk e.batch m := by
  have hidle : c.buffer = c.buffer ∧ c.sendSeq = c.sendSeq ∧ e.batch = e.batch ∧ e.CursorOk ∧
      ∀ m ∈ ([] : List Chunk), IsChunk e.batch m := ⟨rfl, rfl, rfl, he, by simp⟩
  unfold resendEntry
  split
  · exact hidle
  · split
    · exact hidle
    · exact hidle
    · rename_i wrs _ hwrs
      have hpost := postWindow_spec post (buildWindow_spec he hwrs) 0 c e [] rfl he (by simp)
      split
      · rename_i hout
        rw [hout] at hpost
        exact hpost
      · rename_i hout
        rw [hout] at hpost
        exact hpost
      · rename_i hout
        rw [hout] at hpost
        exact hpost

/-! ## Calls of the sender -/

/-- The call keeps the tracked batches and posts chunks of them. -/
structure Sends (c c' : SendComm) (sent : List Chunk) : Prop where
  batches : c'.buffer.map (·.batch) = c.buffer.map (·.batch)
  sendSeq : c'.sendSeq = c.sendSeq
  cursors : ∀ e ∈ c'.buffer, e.CursorOk
  sent : ∀ m ∈ sent, ∃ e ∈ c.buffer, IsChunk e.batch m

variable {c : SendComm}

theorem Sends.idle (h : ∀ e ∈ c.buffer, e.CursorOk) : Sends c c [] := ⟨rfl, rfl, h, by simp⟩

theorem Sends.congr {c' c'' : SendComm} {sent : List Chunk} (h : Sends c c' sent) (hb : c''.buffer = c'.buffer)
    (hs : c''.sendSeq = c'.sendSeq) : Sends c c'' sent :=
  ⟨hb ▸ h.batches, hs ▸ h.sendSeq, hb ▸ h.cursors, h.sent⟩

variable {es : List RetransEntry}

theorem mem_set_cursorOk (h : ∀ e ∈ es, e.CursorOk) (idx : Nat) {e' : RetransEntry}
    (he' : e'.CursorOk) : ∀ e ∈ es.set idx e', e.CursorOk := by
  intro e he
  rcases mem_or_eq_of_mem_set he with he | rfl
  · exact h e he
  · exact he'

theorem map_set_batch {idx : Nat} {e e' : RetransEntry} (h : es[idx]? = some e)
    (hb : e'.batch = e.batch) : (es.set idx e').map (·.batch) = es.map (·.batch) := by
  rw [map_set, hb]
  refine ext_getElem? fun i => ?_
  rw [getElem?_set]
  split
  · rename_i hi
    subst hi
    rw [getElem?_map, h]
    obtain ⟨hlt, -⟩ := List.getElem?_eq_some_iff.1 h
    simp [hlt]
  · rfl

section

variable (h : ∀ e ∈ c.buffer, e.CursorOk)
include h

theorem resendViaSend_sends (seq nowUs : Nat) (post : Nat → Result) :
    Sends c (resendViaSend c seq nowUs post).2.1 (resendViaSend c seq nowUs post).2.2 := by
  unfold resendViaSend
  split
  · exact .idle h
  · split
    · exact .idle h
    · rename_i e he
      have hmem := mem_of_getElem? he
      obtain ⟨-, hseq, hbatch, hcur, hsent⟩ := resendEntry_spec c e nowUs post (h e hmem)
      exact ⟨map_set_batch he hbatch, hseq, mem_set_cursorOk h _ hcur, fun m hm => ⟨e, hmem, hsent m hm⟩⟩

theorem restart_sends {idx : Nat} {e : RetransEntry} (he : c.buffer[idx]? = some e) (seq nowUs : Nat) (post : Nat → Result) :
    let out := resendViaSend { c with buffer := c.buffer.set idx e.restart } seq nowUs post
    Sends c out.2.1 out.2.2 := by
  have hrestart : e.restart.CursorOk := e.batch.cursorOk_zero 0
  have hset := mem_set_cursorOk h idx hrestart
  have hbatch := map_set_batch he (show e.restart.batch = e.batch from rfl)
  have hs := resendViaSend_sends (c := { c with buffer := c.buffer.set idx e.restart }) hset seq nowUs post
  refine ⟨hs.batches.trans hbatch, hs.sendSeq, hs.cursors, fun m hm => ?_⟩
  obtain ⟨e', he', hm⟩ := hs.sent m hm
  have : e'.batch ∈ c.buffer.map (·.batch) := hbatch ▸ mem_map_of_mem he'
  obtain ⟨e'', he'', hb⟩ := mem_map.1 this
  exact ⟨e'', he'', hb ▸ hm⟩

theorem checkTimeoutFrom_sends (nowUs : Nat) (post : Nat → Result) (n idx : Nat) :
    Sends c (checkTimeoutFrom c nowUs post n idx).2.1 (checkTimeoutFrom c nowUs post n idx).2.2 := by
  induction n generalizing idx with
  | zero => exact .idle h
  | succ n ih =>
    rw [checkTimeoutFrom]
    split
    · exact .idle h
    · rename_i e he
      split
      · have hs := resendViaSend_sends h e.batch.seq nowUs post
        split
        · rename_i hout
          rw [hout] at hs
          exact hs
        · exact hs
      · split
        · split
          · exact .idle h
          · split
            · exact .idle h
            · have hs := restart_sends h he e.batch.seq nowUs post
              split
              · rename_i hout
                rw [hout] at hs
                exact hs.congr rfl rfl
              · rename_i hout
                rw [hout] at hs
                exact hs
              · exact hs
        · exact ih _

theorem checkTimeout_sends (nowUs : Nat) (post : Nat → Result) :
    Sends c (checkTimeout c nowUs post).1 (checkTimeout c nowUs post).2 := by
  have hs := checkTimeoutFrom_sends h nowUs post c.buffer.length 0
  unfold checkTimeout
  split
  · rename_i hout
    rw [hout] at hs
    exact hs
  · rename_i hout
    rw [hout] at hs
    exact hs.congr rfl rfl

theorem completeRetransWindow_sends (failed : Bool) : Sends c (completeRetransWindow c failed) [] := by
  have hi := Sends.idle h
  unfold completeRetransWindow
  dsimp only
  generalize (if failed = true then 0 else c.outstandingRetrans - 1) = outstanding
  split
  · exact hi.congr rfl rfl
  · split
    · exact hi.congr rfl rfl
    · exact hi.congr rfl rfl

end

/-! ## ACKs -/

theorem freeAcked_buffer (ackSeq : Nat) (c : SendComm) (es : List RetransEntry) :
    (freeAcked ackSeq c es).buffer = es.dropWhile fun e => seqLeq e.batch.seq ackSeq := by
  induction es generalizing c with
  | nil => rfl
  | cons e es ih =>
    rw [freeAcked, dropWhile_cons]
    split
    · exact ih _
    · rfl

theorem freeAcked_sendSeq (ackSeq : Nat) (c : SendComm) (es : List RetransEntry) :
    (freeAcked ackSeq c es).sendSeq = c.sendSeq := by
  induction es generalizing c with
  | nil => rfl
  | cons e es ih =>
    rw [freeAcked]
    split
    · exact ih _
    · rfl

theorem freeAcked_asyncResult (ackSeq : Nat) (c : SendComm) (es : List RetransEntry) :
    (freeAcked ackSeq c es).asyncResult = c.asyncResult := by
  induction es generalizing c with
  | nil => rfl
  | cons e es ih =>
    rw [freeAcked]
    split
    · exact ih _
    · rfl

section

variable (c) (ack : AckMsg) (nowUs : Nat)

theorem processAck_buffer : (processAck c ack nowUs).buffer = c.buffer.dropWhile fun e => seqLeq e.batch.seq ack.ackSeq := by
  unfold processAck
  rw [freeAcked_buffer]
  split <;> rfl

theorem processAck_sendSeq : (processAck c ack nowUs).sendSeq = c.sendSeq := by
  unfold processAck
  rw [freeAcked_sendSeq]
  split <;> rfl

theorem processAck_asyncResult : (processAck c ack nowUs).asyncResult = c.asyncResult := by
  unfold processAck
  rw [freeAcked_asyncResult]
  split <;> rfl

end

end FlagCX.Ib
