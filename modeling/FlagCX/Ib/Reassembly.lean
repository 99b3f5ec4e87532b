import FlagCX.Ib.Delivery

/-!
# Reassembly of retransmitted batches

The receiver copies a chunk only at the offset its segment has reached, so that the copies of a receive are the
sender's bytes of the batch it waits for (`reassembly_exact`). The generation of a slot has 12 bits: a chunk that is
delayed over 4095 posts is copied into a receive it does not belong to (`stale_chunk_copied`).
-/

namespace FlagCX.Ib
open List Function Option

open Lib

/-! ## Tilings -/

/-- The copies, newest first, lie end to end from offset 0 to `n`. -/
def Tiles : Nat → List Copy → Prop
  | n, [] => n = 0
  | n, c :: cs => n = c.offset + c.size ∧ Tiles c.offset cs

variable {n : Nat}

theorem Tiles.covers {cs : List Copy} (h : Tiles n cs) {j : Nat} (hj : j < n) :
    ∃ c ∈ cs, c.offset ≤ j ∧ j < c.offset + c.size := by
  induction cs generalizing n with
  | nil =>
    have : n = 0 := h
    omega
  | cons c cs ih =>
    obtain ⟨hn, hcs⟩ := h
    rcases lt_or_ge j c.offset with hlt | hge
    · obtain ⟨c', hc', hcov⟩ := ih hcs hlt
      exact ⟨c', mem_cons_of_mem _ hc', hcov⟩
    · exact ⟨c, mem_cons_self, hge, by omega⟩

theorem Tiles.le {cs : List Copy} (h : Tiles n cs) {c : Copy} (hc : c ∈ cs) : c.offset + c.size ≤ n := by
  induction cs generalizing n with
  | nil => cases hc
  | cons c' cs ih =>
    obtain ⟨hn, hcs⟩ := h
    rcases mem_cons.1 hc with rfl | hc
    · omega
    · have := ih hcs hc
      omega

/-! ## The bits of the segment mask -/

theorem testBit_mark (mask segment i : Nat) :
    (mask ||| 1 <<< segment).testBit i = (mask.testBit i || decide (i = segment)) := by
  rw [Nat.testBit_or, Nat.shiftLeft_eq, one_mul, Nat.testBit_two_pow]
  simp only [eq_comm]

theorem testBit_clear {mask segment : Nat} (h : mask &&& 1 <<< segment = 0) : mask.testBit segment = false := by
  have hb : (mask &&& 1 <<< segment).testBit segment = (0 : Nat).testBit segment := by rw [h]
  rw [Nat.testBit_and, Nat.shiftLeft_eq, one_mul, Nat.testBit_two_pow_self, Nat.zero_testBit, Bool.and_true] at hb
  exact hb

/-! ## The invariant of a receive -/

/-- What has been reassembled of the batch a receive waits for. -/
structure Reassembling (batches : List Batch) (r : Request) : Prop where
  own : ∀ c ∈ r.copies, c.index = r.index
  source : ∀ c ∈ r.copies, ∃ b s, batches[r.index]? = some b ∧ b.segments[c.segment]? = some s ∧
    c.offset + c.size ≤ s.size ∧ ∀ i < c.size, c.payload i = s.data (c.offset + i)
  tiles : ∀ i, Tiles (r.retransSegmentBytes i) (r.copies.filter (·.segment == i))
  filled : ∀ b i s, batches[r.index]? = some b → b.segments[i]? = some s →
    ∀ j < r.retransSegmentBytes i, r.data i j = s.data j
  untouched : ∀ i j, r.retransSegmentBytes i ≤ j → r.data i j = r.initial i j
  marks : ∀ i, r.retransSegmentMask.testBit i = true ↔ (∃ c ∈ r.copies, c.segment = i) ∧
    ∃ b s, batches[r.index]? = some b ∧ b.segments[i]? = some s ∧ r.retransSegmentBytes i = s.size

theorem reassembling_postRecv (batches : List Batch) (r : Request) (fifoTail : Nat)
    (buffers : List (Nat × (Nat → UInt8))) (lanes : List Dev) (ctsDev : Dev) :
    Reassembling batches (postRecv r fifoTail buffers lanes ctsDev) where
  own := by simp [postRecv]
  source := by simp [postRecv]
  tiles i := rfl
  filled := by simp [postRecv]
  untouched i j _ := rfl
  marks := by simp [postRecv]

variable {batches : List Batch} {r r' : Request}

theorem Reassembling.congr (h : Reassembling batches r) (hindex : r'.index = r.index) (hcopies : r'.copies = r.copies)
    (hbytes : r'.retransSegmentBytes = r.retransSegmentBytes) (hmask : r'.retransSegmentMask = r.retransSegmentMask)
    (hdata : r'.data = r.data) (hinit : r'.initial = r.initial) : Reassembling batches r' where
  own := by rw [hcopies, hindex]; exact h.own
  source := by rw [hcopies, hindex]; exact h.source
  tiles := by rw [hcopies, hbytes]; exact h.tiles
  filled := by rw [hindex, hbytes, hdata]; exact h.filled
  untouched := by rw [hbytes, hdata, hinit]; exact h.untouched
  marks := by rw [hmask, hcopies, hindex, hbytes]; exact h.marks

theorem Reassembling.append (h : Reassembling batches r) (b : Batch) : Reassembling (batches ++ [b]) r := by
  have hold : ∀ {i : Nat} {b' : Batch}, batches[i]? = some b' → (batches ++ [b])[i]? = some b' :=
    fun hi => getElem?_append_some hi _
  -- a copy pins the batch of the receive, so only receives without copies could see the new one
  have hpin : ∀ {c : Copy}, c ∈ r.copies → ∀ {b' : Batch}, (batches ++ [b])[r.index]? = some b' →
      batches[r.index]? = some b' := by
    intro c hc b' hb'
    obtain ⟨b'', _, hb'', -⟩ := h.source c hc
    rw [hold hb''] at hb'
    rwa [← hb']
  refine ⟨h.own, fun c hc => ?_, h.tiles, fun b' i s hb' hs j hj => ?_, h.untouched, fun i => ?_⟩
  · obtain ⟨b', s, hb', hs⟩ := h.source c hc
    exact ⟨b', s, hold hb', hs⟩
  · obtain ⟨c, hc, -⟩ := (h.tiles i).covers hj
    exact h.filled b' i s (hpin (mem_filter.1 hc).1 hb') hs j hj
  · rw [h.marks i]
    refine and_congr_right fun ⟨c, hc, _⟩ => ?_
    constructor
    · rintro ⟨b', s, hb', hs⟩
      exact ⟨b', s, hold hb', hs⟩
    · rintro ⟨b', s, hb', hs⟩
      exact ⟨b', s, hpin hc hb', hs⟩

variable {m : Chunk}

/-- **Copying a chunk of the batch the receive waits for, at the offset it has reached, keeps the reassembly.** -/
theorem Reassembling.copyChunk (h : Reassembling batches r) {b : Batch}
    {segment offset : Nat} {s : Segment} (hb : batches[r.index]? = some b) (hs : b.segments[segment]? = some s)
    (hoff : offset = 0 ∨ offset < s.size) (hm : m = chunkAt b segment offset s) (hindex : m.index = r.index)
    (hsegment : m.hdr.fields.segment = segment) (hchunk : m.hdr.fields.chunkOffset = offset)
    (htotal : m.hdr.fields.totalSize = s.size) (hat : offset = r.retransSegmentBytes segment)
    (hclear : r.retransSegmentMask &&& 1 <<< segment = 0) : Reassembling batches (r.copyChunk m) := by
  have hle : offset + m.hdr.size ≤ s.size := by
    rw [hm]
    exact chunkAt_size_le b segment (by omega)
  have hpay : ∀ i, m.payload i = s.data (offset + i) := by
    intro i
    rw [hm]
    rfl
  have huniq : ∀ {b' : Batch} {s' : Segment}, batches[r.index]? = some b' → b'.segments[segment]? = some s' → s' = s := by
    intro b' s' hb' hs'
    rw [hb] at hb'
    cases hb'
    rw [hs] at hs'
    cases hs'
    rfl
  unfold Request.copyChunk
  dsimp only
  rw [hsegment, hchunk, htotal]
  constructor
  case own =>
    intro c hc
    rcases mem_cons.1 hc with rfl | hc
    · exact hindex
    · exact h.own c hc
  case source =>
    intro c hc
    rcases mem_cons.1 hc with rfl | hc
    · exact ⟨b, s, hb, hs, hle, fun i _ => hpay i⟩
    · exact h.source c hc
  case tiles =>
    intro i
    dsimp only
    rw [filter_cons]
    by_cases hi : i = segment
    · subst hi
      rw [if_pos (beq_self_eq_true i), update_self]
      refine ⟨by rw [hat], ?_⟩
      rw [hat]
      exact h.tiles i
    · rw [if_neg (by simpa using fun he => hi he.symm), update_of_ne hi]
      exact h.tiles i
  case filled =>
    intro b' i s' hb' hs' j hj
    dsimp only at hj ⊢
    by_cases hi : i = segment
    · subst hi
      rw [update_self] at hj ⊢
      rw [huniq hb' hs', copyBytes]
      split
      · rw [hpay]
        congr 1
        omega
      · exact h.filled b i s hb hs j (by omega)
    · rw [update_of_ne hi] at hj ⊢
      exact h.filled b' i s' hb' hs' j hj
  case untouched =>
    intro i j hj
    dsimp only at hj ⊢
    by_cases hi : i = segment
    · subst hi
      rw [update_self] at hj ⊢
      rw [copyBytes, if_neg (by omega)]
      exact h.untouched i j (by omega)
    · rw [update_of_ne hi] at hj ⊢
      exact h.untouched i j hj
  case marks =>
    intro i
    dsimp only
    by_cases hi : i = segment
    · subst hi
      rw [update_self]
      have hcopy : ∃ c ∈ (⟨m.index, i, offset, m.hdr.size, m.payload⟩ :: r.copies : List Copy), c.segment = i :=
        ⟨_, mem_cons_self, rfl⟩
      split
      · rename_i hfull
        rw [testBit_mark, decide_eq_true rfl, Bool.or_true]
        exact ⟨fun _ => ⟨hcopy, b, s, hb, hs, hfull⟩, fun _ => rfl⟩
      · rename_i hmore
        rw [testBit_clear hclear]
        refine ⟨fun hf => absurd hf Bool.false_ne_true, fun ⟨_, b', s', hb', hs', hfull⟩ => ?_⟩
        rw [huniq hb' hs'] at hfull
        exact absurd hfull hmore
    · have hbit : (if r.retransSegmentBytes segment + m.hdr.size = s.size then r.retransSegmentMask ||| 1 <<< segment
          else r.retransSegmentMask).testBit i = r.retransSegmentMask.testBit i := by
        split
        · rw [testBit_mark, decide_eq_false hi, Bool.or_false]
        · rfl
      rw [hbit, update_of_ne hi, h.marks i]
      refine and_congr_left fun _ => ?_
      constructor
      · rintro ⟨c, hc, hci⟩
        exact ⟨c, mem_cons_of_mem _ hc, hci⟩
      · rintro ⟨c, hc, hci⟩
        rcases mem_cons.1 hc with rfl | hc
        · exact absurd hci.symm hi
        · exact ⟨c, hc, hci⟩

/-! ## Steps -/

/-- A chunk is delivered while its slot has been posted again fewer than 4095 times. -/
def FreshChunk (w : World) : Act → Prop
  | .chunk i _ => ∀ m, w.chunks[i]? = some m → w.reposts m.index m.hdr.fields.requestSlot < 4095
  | _ => True

variable {w : World}

theorem Reassembling.takeChunk (hw : Wired w) (hm : m ∈ w.chunks)
    (hfresh : w.reposts m.index m.hdr.fields.requestSlot < 4095)
    (hcur : (w.rcv.reqs m.hdr.fields.requestSlot).current m = true)
    (htake : (w.rcv.reqs m.hdr.fields.requestSlot).takeChunk m = .ok r')
    (h : Reassembling w.batches (w.rcv.reqs m.hdr.fields.requestSlot)) : Reassembling w.batches r' := by
  rcases takeChunk_cases htake with rfl | ⟨hat, hclear, rfl⟩
  · exact h
  obtain ⟨b, hb, segment, offset, s, hs, hoff, rfl⟩ := hw.chunks m hm
  have hf := hw.fields hb hs hoff
  rw [hf] at hfresh hcur h hat hclear
  have hmatch : (w.rcv.reqs b.remoteRequestSlot).matchesGeneration b.remoteGeneration = true := by
    unfold Request.current at hcur
    rw [hf, Bool.and_eq_true, Bool.and_eq_true] at hcur
    exact hcur.1.1
  have hindex := hw.same_batch hb hmatch hfresh
  rw [hf]
  refine h.copyChunk (by rw [hindex]; exact hb) hs hoff rfl hindex.symm ?_ ?_ ?_ hat hclear <;>
    rw [hf]

theorem reassembling_update {s : Nat} (h : ∀ t, (w.rcv.reqs t).type = .recv → Reassembling w.batches (w.rcv.reqs t))
    (hr : r.type = .recv → Reassembling w.batches r) (t : Nat) (ht : (update w.rcv.reqs s r t).type = .recv) :
    Reassembling w.batches (update w.rcv.reqs s r t) := by
  by_cases hts : t = s
  · subst hts
    rw [update_self] at ht ⊢
    exact hr ht
  · rw [update_of_ne hts] at ht ⊢
    exact h t ht

theorem reassembling_step {w' : World} (hw : Wired w)
    (h : ∀ t, (w.rcv.reqs t).type = .recv → Reassembling w.batches (w.rcv.reqs t)) (a : Act) (hok : FreshChunk w a)
    (hs : w.step a = some w') : ∀ t, (w'.rcv.reqs t).type = .recv → Reassembling w'.batches (w'.rcv.reqs t) := by
  cases a with
  | irecv buffers lanes ctsDev =>
    change w.stepIrecv buffers lanes ctsDev = some w' at hs
    unfold World.stepIrecv at hs
    split at hs
    · cases hs
    split at hs
    · cases hs
    cases hs
    exact reassembling_update h fun _ => reassembling_postRecv ..
  | iflush devs =>
    obtain ⟨s, -, rfl⟩ := stepIflush_spec hs
    exact reassembling_update h fun he => nomatch he
  | send sources requests lanes nowUs =>
    obtain ⟨rec, b, -, -, -, -, hw', -, -⟩ := stepSend_spec hs
    rw [hw']
    intro t ht
    exact (h t ht).append b
  | notify i env =>
    obtain ⟨m, -, -, rfl⟩ := stepNotify_spec hs
    intro t ht
    change (((processNotification w.rcv m env).2.1).reqs t).type = .recv at ht
    change Reassembling w.batches (((processNotification w.rcv m env).2.1).reqs t)
    cases notify_cases w.rcv m env (rfl : decodeImmData m.immData = (_, _, _)) with
    | idle hreqs => rw [hreqs] at ht ⊢; exact h t ht
    | old _ hreqs => rw [hreqs] at ht ⊢; exact h t ht
    | failed _ _ hreqs | counted _ _ hreqs =>
      rw [hreqs] at ht ⊢
      refine reassembling_update h ?_ t ht
      intro hr
      exact (h _ hr).congr rfl rfl rfl rfl rfl rfl
  | chunk i env =>
    obtain ⟨m, hm, hi, rfl⟩ := stepChunk_spec hs
    have hfresh := hok m hi
    intro t ht
    change (((processRetrans w.rcv m env).2.1).reqs t).type = .recv at ht
    change Reassembling w.batches (((processRetrans w.rcv m env).2.1).reqs t)
    cases retrans_cases w.rcv m env with
    | idle hreqs => rw [hreqs] at ht ⊢; exact h t ht
    | old _ hreqs => rw [hreqs] at ht ⊢; exact h t ht
    | taken r hcur htake hreqs =>
      rw [hreqs] at ht ⊢
      refine reassembling_update h (fun hr => ?_) t ht
      exact Reassembling.takeChunk hw hm hfresh hcur htake (h _ ((takeChunk_keeps htake).recv hr).1)
    | completed r r' hcur htake _ hdrop hreqs =>
      rw [hreqs] at ht ⊢
      refine reassembling_update h (fun hr => ?_) t ht
      have htaken : r.type = .recv → Reassembling w.batches r := fun hr =>
        Reassembling.takeChunk hw hm hfresh hcur htake (h _ ((takeChunk_keeps htake).recv hr).1)
      rcases hdrop with rfl | hdrop
      · exact htaken hr
      · rw [dropDataEvents_eq hdrop] at hr ⊢
        exact (htaken hr).congr rfl rfl rfl rfl rfl rfl
  | ack i nowUs =>
    obtain ⟨a, -, -, rfl⟩ := stepAck_spec hs
    exact h
  | timeout nowUs post =>
    rw [stepTimeout_spec hs]
    exact h
  | windowCqe failed =>
    rw [stepWindowCqe_spec hs]
    exact h
  | sendCqe s dev =>
    obtain ⟨-, rfl⟩ := stepSendCqe_spec hs
    exact reassembling_update h fun hr => (h s hr).congr rfl rfl rfl rfl rfl rfl
  | test s =>
    obtain ⟨-, -, rfl⟩ := stepTest_spec hs
    exact reassembling_update h fun he => nomatch he

/-! ## Runs -/

/-- What the reassembly of a receive has done: every copy holds the bytes of the batch at their own offset; the copies of a
segment lie end to end; the buffer holds the sender's bytes up to the received offset; and a segment is marked exactly when
its last byte, or its one empty chunk, was copied. -/
structure Reassembled (batches : List Batch) (r : Request) : Prop where
  own : ∀ c ∈ r.copies, c.index = r.index
  source : ∀ c ∈ r.copies, ∃ b s, batches[r.index]? = some b ∧ b.segments[c.segment]? = some s ∧
    c.offset + c.size ≤ s.size ∧ ∀ i < c.size, c.payload i = s.data (c.offset + i)
  order : ∀ i, Tiles (r.retransSegmentBytes i) (r.copies.filter (·.segment == i))
  contents : ∀ b i s, batches[r.index]? = some b → b.segments[i]? = some s →
    ∀ j, r.data i j = if j < r.retransSegmentBytes i then s.data j else r.initial i j
  complete : ∀ b i s, batches[r.index]? = some b → b.segments[i]? = some s →
    (r.retransSegmentMask.testBit i = true ↔ (∃ c ∈ r.copies, c.segment = i) ∧
      ∀ j < s.size, ∃ c ∈ r.copies, c.segment = i ∧ c.offset ≤ j ∧ j < c.offset + c.size)

theorem Reassembling.reassembled (h : Reassembling batches r) : Reassembled batches r := by
  refine ⟨h.own, h.source, h.tiles, fun b i s hb hs j => ?_, fun b i s hb hs => ?_⟩
  · split
    · rename_i hj
      exact h.filled b i s hb hs j hj
    · exact h.untouched i j (by omega)
  · rw [h.marks i]
    refine and_congr_right fun _ => ?_
    have hmem : ∀ {c : Copy}, c ∈ r.copies.filter (·.segment == i) ↔ c ∈ r.copies ∧ c.segment = i := by
      intro c
      rw [mem_filter, beq_iff_eq]
    constructor
    · rintro ⟨b', s', hb', hs', hfull⟩ j hj
      rw [hb] at hb'
      cases hb'
      rw [hs] at hs'
      cases hs'
      obtain ⟨c, hc, hcov⟩ := (h.tiles i).covers (hfull ▸ hj)
      exact ⟨c, (hmem.1 hc).1, (hmem.1 hc).2, hcov⟩
    · intro hall
      refine ⟨b, s, hb, hs, ?_⟩
      -- no copy passes the end of the segment, and its last byte is covered
      have hle : r.retransSegmentBytes i ≤ s.size := by
        cases hcs : r.copies.filter (·.segment == i) with
        | nil =>
          have := h.tiles i
          rw [hcs] at this
          rw [show r.retransSegmentBytes i = 0 from this]
          omega
        | cons c cs =>
          have ht := h.tiles i
          rw [hcs] at ht
          obtain ⟨hc, hci⟩ := hmem.1 (hcs ▸ mem_cons_self : c ∈ r.copies.filter (·.segment == i))
          obtain ⟨b', s', hb', hs', hend, -⟩ := h.source c hc
          rw [hb] at hb'
          cases hb'
          rw [hci, hs] at hs'
          cases hs'
          rw [ht.1]
          exact hend
      rcases lt_or_ge (r.retransSegmentBytes i) s.size with hlt | hge
      · obtain ⟨c, hc, hci, h1, h2⟩ := hall _ hlt
        have := (h.tiles i).le (hmem.2 ⟨hc, hci⟩)
        omega
      · omega

/-- **Reassembly.** In every run that delivers no chunk whose slot has been posted again 4095 times since its batch, every
receive has been reassembled exactly from the batch it waits for. -/
theorem reassembly_exact {minRtoUs maxRetry : Nat} {w : World}
    (h : Reach World.step FreshChunk (World.start minRtoUs maxRetry) w) (s : Nat) (hs : (w.rcv.reqs s).type = .recv) :
    Reassembled w.batches (w.rcv.reqs s) := by
  have hinv : Wired w ∧ ∀ t, (w.rcv.reqs t).type = .recv → Reassembling w.batches (w.rcv.reqs t) := by
    refine h.invariant (I := fun w => Wired w ∧ ∀ t, (w.rcv.reqs t).type = .recv → Reassembling w.batches (w.rcv.reqs t))
      ⟨wired_start minRtoUs maxRetry, fun t ht => nomatch ht⟩ ?_
    intro w w' a ⟨hw, hr⟩ hok hstep
    exact ⟨hw.step a hstep, reassembling_step hw hr a hok hstep⟩
  exact (hinv.2 s hs).reassembled

/-- A byte for slot 0, sent as batch 0 and retransmitted. -/
def firstTransfer : List Act :=
  [.irecv [(1, fun _ => 0)] [0] 0, .sendCqe 0 0, .send [⟨1, fun _ => 7⟩] [0] [0] 0, .timeout 5 fun _ => .success]

/-- The environment lets every post through. -/
def quietEnv : Env := ⟨0, .success, .success⟩

theorem reposts_le (w : World) (index s : Nat) : w.reposts index s ≤ w.fifo.length := by
  refine countP_le_length.trans ?_
  rw [length_drop]
  omega

theorem reassembly_exact_one_byte : ∃ w, Reach World.step FreshChunk (World.start 1 1) w ∧
    (w.rcv.reqs 0).retransSegmentMask = 1 ∧ (w.rcv.reqs 0).data 0 0 = 7 ∧ Reassembled w.batches (w.rcv.reqs 0) := by
  obtain ⟨w, hw⟩ : ∃ w, exec World.step (World.start 1 1) firstTransfer = some w := isSome_iff_exists.1 (by decide)
  obtain ⟨w', hw'⟩ : ∃ w', exec World.step (World.start 1 1) (firstTransfer ++ [.chunk 0 quietEnv]) = some w' :=
    isSome_iff_exists.1 (by decide)
  have hfifo : (exec World.step (World.start 1 1) firstTransfer).map (·.fifo.length) = some 1 := by decide
  have hreq : (exec World.step (World.start 1 1) (firstTransfer ++ [.chunk 0 quietEnv])).map (fun w =>
      ((w.rcv.reqs 0).type, (w.rcv.reqs 0).retransSegmentMask, (w.rcv.reqs 0).data 0 0)) = some (.recv, 1, 7) := by decide
  rw [hw, map_some, some.injEq] at hfifo
  rw [hw', map_some, some.injEq, Prod.mk.injEq, Prod.mk.injEq] at hreq
  obtain ⟨htype, hmask, hdata⟩ := hreq
  rw [exec_append, hw, bind_some, exec_singleton] at hw'
  have hreach : Reach World.step FreshChunk (World.start 1 1) w := by
    refine .of_exec (fun s a ha => ?_) hw
    simp only [firstTransfer, mem_cons, not_mem_nil, or_false] at ha
    rcases ha with rfl | rfl | rfl | rfl <;> trivial
  have hreach' : Reach World.step FreshChunk (World.start 1 1) w' := by
    have hfresh : FreshChunk w (.chunk 0 quietEnv) := by
      intro m _
      have := reposts_le w m.index m.hdr.fields.requestSlot
      omega
    exact .next _ hreach hfresh hw'
  exact ⟨w', hreach', hmask, hdata, reassembly_exact hreach' 0 htype⟩

/-! ## A chunk as old as its slot's generations -/

/-- Slot 0 is free after `n` transfers of one byte, each acknowledged; the chunks `cs` are still on their way. -/
structure Idle (n : Nat) (cs : List Chunk) (w : World) : Prop where
  type : (w.rcv.reqs 0).type = .unused
  generation : (w.rcv.reqs 0).retransGeneration = genOf n
  recvSeq : w.rcv.recvSeq = n % 4096
  lastAckSeq : w.rcv.lastAckSeq = n % 4096
  ackInterval : w.rcv.ackInterval = 1
  rcvOk : w.rcv.asyncResult = .success
  sndOk : w.snd.asyncResult = .success
  sendSeq : w.snd.sendSeq = n % 4096
  buffer : w.snd.buffer = []
  fifo : w.fifo.length = n
  batches : w.batches.length = n
  notes : w.notes.length = n
  acks : w.acks.length = n
  chunks : w.chunks = cs

/-- A receive of one byte, posted as FIFO record `n` and waiting for its notification. -/
structure Posted (n : Nat) (r : Request) : Prop where
  type : r.type = .recv
  generation : r.retransGeneration = genOf (n + 1)
  retransSeq : r.retransSeq = noSeq
  nreqs : r.nreqs = 1
  mask : r.retransSegmentMask = 0
  bytes : r.retransSegmentBytes 0 = 0
  capacity : r.capacities 0 = 1
  events : r.events = fun d => if d = 0 then 1 else 0
  dataEvents : r.dataEvents = fun d => if d = 0 then 1 else 0
  index : r.index = n

/-- Slot 0 holds such a receive after `n` transfers. -/
structure Waiting (n : Nat) (cs : List Chunk) (w : World) : Prop where
  posted : Posted n (w.rcv.reqs 0)
  recvSeq : w.rcv.recvSeq = n % 4096
  lastAckSeq : w.rcv.lastAckSeq = n % 4096
  ackInterval : w.rcv.ackInterval = 1
  rcvOk : w.rcv.asyncResult = .success
  sndOk : w.snd.asyncResult = .success
  sendSeq : w.snd.sendSeq = n % 4096
  buffer : w.snd.buffer = []
  fifo : w.fifo.length = n + 1
  record : w.fifo[n]? = some ⟨0, genOf (n + 1), [1]⟩
  batches : w.batches.length = n
  notes : w.notes.length = n
  acks : w.acks.length = n
  chunks : w.chunks = cs

abbrev Run : World → World → Prop := Reach World.step fun _ _ => True

theorem run_next {w' w'' : World} (h : Run w w') (a : Act) (hs : w'.step a = some w'') : Run w w'' :=
  Reach.next a h trivial hs

variable {c : RecvComm}

theorem getRequest_zero (h : (c.reqs 0).type = .unused) : getRequest c = some 0 := by
  have hrange : range maxRequests = 0 :: (range 255).map Nat.succ := range_succ_eq_map
  unfold getRequest
  rw [hrange, find?_cons_of_pos (by simp [h])]

variable {cs : List Chunk}

theorem Idle.waiting (h : Idle n cs w) : ∃ w', Run w w' ∧ Waiting n cs w' := by
  obtain ⟨r, hr⟩ : ∃ r, postRecv (w.rcv.reqs 0) n [(1, fun _ => 0)] [0] 0 = r := ⟨_, rfl⟩
  have hirecv : w.step (.irecv [(1, fun _ => 0)] [0] 0) = some { w with
      rcv := w.rcv.setReq 0 r
      fifo := w.fifo ++ [⟨0, genOf (n + 1), [1]⟩] } := by
    change w.stepIrecv [(1, fun _ => 0)] [0] 0 = _
    unfold World.stepIrecv
    rw [if_neg (by simp [maxRecvs]), getRequest_zero h.type, h.fifo, genOf_succ_eq, ← h.generation, ← hr]
    rfl
  have hgen : r.retransGeneration = genOf (n + 1) := by
    rw [← hr, genOf_succ_eq, ← h.generation]
    rfl
  -- whatever the slot holds in the end, the rest of the world is as the receive left it
  have hwait : ∀ r', Posted n r' → Waiting n cs { w with
      rcv := w.rcv.setReq 0 r'
      fifo := w.fifo ++ [⟨0, genOf (n + 1), [1]⟩] } := by
    intro r' hr'
    refine ⟨?_, h.recvSeq, h.lastAckSeq, h.ackInterval, h.rcvOk, h.sndOk, h.sendSeq, h.buffer, ?_, ?_, h.batches, h.notes,
      h.acks, h.chunks⟩
    · rwa [RecvComm.setReq_self]
    · rw [length_append, h.fifo, length_singleton]
    · rw [← h.fifo]
      exact getElem?_concat_length ..
  have hposted : ∀ events cqes, (events = fun d : Dev => if d = 0 then 1 else 0) →
      Posted n { r with events := events, cqes := cqes } := by
    intro events cqes he
    subst hr
    refine ⟨rfl, hgen, rfl, rfl, rfl, rfl, rfl, he, ?_, rfl⟩
    exact funext (Fin.forall_fin_two.2 ⟨rfl, rfl⟩)
  -- every 256th FIFO write through device 0 is signaled, and its completion comes first
  by_cases hsig : n % 256 = 0
  · have hcqe : r.type = .recv ∧ r.cqes 0 = 1 ∧ r.events 0 = 2 ∧ r.events 1 = 0 := by
      rw [← hr]
      simp [postRecv, maxRequests, hsig, laneEvents]
    obtain ⟨h0, h1, h2, h3⟩ := hcqe
    refine ⟨_, run_next (run_next .init _ hirecv) (.sendCqe 0 0) ?_,
      hwait _ (hposted (update r.events 0 (r.events 0 - 1)) (update r.cqes 0 (r.cqes 0 - 1)) ?_)⟩
    · change World.stepSendCqe _ 0 0 = _
      unfold World.stepSendCqe
      rw [RecvComm.setReq_self, if_neg (by rw [h0, h1, h2]; simp [RecvComm.setReq, h.rcvOk])]
      dsimp only [RecvComm.setReq]
      rw [update_idem]
    · rw [h2]
      refine funext (Fin.forall_fin_two.2 ⟨rfl, ?_⟩)
      rw [update_of_ne (by decide), h3]
      rfl
  · refine ⟨_, run_next .init _ hirecv, hwait _ (hposted r.events r.cqes ?_)⟩
    rw [← hr]
    refine funext (Fin.forall_fin_two.2 ⟨?_, ?_⟩)
    · simp [postRecv, maxRequests, hsig, laneEvents]
    · simp [postRecv, maxRequests, laneEvents]

theorem seqLess_self (a : Nat) : seqLess (a % 4096) (a % 4096) = false := by
  unfold seqLess
  rw [and_seqMask]
  simp

theorem ackSequence_next (hseq : c.recvSeq = n % 4096) (hlast : c.lastAckSeq = n % 4096)
    (hint : c.ackInterval = 1) : ∃ c' a, ackSequence c (n % 4096) quietEnv = (.success, c', [a]) ∧ c'.reqs = c.reqs ∧
      c'.recvSeq = (n + 1) % 4096 ∧ c'.lastAckSeq = (n + 1) % 4096 ∧ c'.ackInterval = 1 ∧
      c'.asyncResult = c.asyncResult ∧ a.ackSeq = n % 4096 := by
  have hnext : c.nextRecvSeq (n % 4096) = (n + 1) % 4096 := by
    rw [nextRecvSeq_eq, if_pos hseq.symm, hseq]
    omega
  have hack : c.shouldAck (n % 4096) quietEnv.nowUs = true := by
    unfold RecvComm.shouldAck
    have hdelta : ((n + 1) % 4096 + 2 ^ 32 - n % 4096) % 2 ^ 32 % 4096 = 1 := by omega
    rw [hnext, hlast, hint, and_seqMask, hdelta]
    simp
  unfold ackSequence recvPacket
  rw [if_pos hack, hnext]
  refine ⟨_, _, rfl, rfl, rfl, rfl, hint, rfl, ?_⟩
  dsimp only
  rw [and_seqMask]
  omega

theorem processNotification_next (hr : Posted n (c.reqs 0)) (hseq : c.recvSeq = n % 4096)
    (hlast : c.lastAckSeq = n % 4096) (hint : c.ackInterval = 1) :
    ∃ c' a, processNotification c ⟨encodeImmData (n % 4096) 0 (genOf (n + 1)), 0, n⟩ quietEnv = (.success, c', [a]) ∧
      (c'.reqs 0).type = .recv ∧ (c'.reqs 0).retransGeneration = genOf (n + 1) ∧ (c'.reqs 0).events = (fun _ => 0) ∧
      c'.recvSeq = (n + 1) % 4096 ∧ c'.lastAckSeq = (n + 1) % 4096 ∧ c'.ackInterval = 1 ∧
      c'.asyncResult = c.asyncResult ∧ a.ackSeq = n % 4096 := by
  obtain ⟨c', a, hack, hreqs, h1, h2, h3, h4, h5⟩ := ackSequence_next
    (c := c.setReq 0 { c.reqs 0 with retransSeq := n % 4096 }) hseq hlast hint
  have hmatch : (c.reqs 0).matchesGeneration (genOf (n + 1)) = true := by
    unfold Request.matchesGeneration
    rw [hr.type, hr.generation, and_generationMask, Nat.mod_eq_of_lt (genOf_lt _)]
    simp
  have hsentinel : ¬ ((c.reqs 0).retransSeq = n % 4096 ∧ (c.reqs 0).retransSegmentMask = completeMask (c.reqs 0).nreqs) := by
    rw [hr.retransSeq, noSeq]
    omega
  have hpending : (c.reqs 0).pendingDataEvents = 1 := by
    rw [Request.pendingDataEvents, hr.dataEvents]
    rfl
  refine ⟨c'.setReq 0 ((c.reqs 0).countDown (n % 4096) 0), a, ?_, ?_⟩
  · unfold processNotification
    rw [decodeImmData_encode (by decide), Nat.mod_mod, Nat.mod_eq_of_lt (genOf_lt _)]
    dsimp only
    rw [if_neg (by simp [quietEnv]), if_neg (by rw [hmatch, hseq, seqLess_self]; simp), if_neg hsentinel,
      if_neg (by rw [hr.events]; simp), if_pos hpending, hack]
    dsimp only
    rw [if_neg (by rw [hr.dataEvents]; simp)]
  · rw [RecvComm.setReq_self]
    refine ⟨hr.type, hr.generation, ?_, h1, h2, h3, h4, h5⟩
    rw [Request.countDown, hr.events]
    exact funext (Fin.forall_fin_two.2 ⟨rfl, rfl⟩)

/-- One transfer of a byte, acknowledged, and the slot is free again. -/
theorem Waiting.idle (h : Waiting n cs w) : ∃ w', Run w w' ∧ Idle (n + 1) cs w' := by
  obtain ⟨b, hb⟩ : ∃ b, makeBatch w.snd n ⟨0, genOf (n + 1), [1]⟩ [⟨1, fun _ => 7⟩] [0] = b := ⟨_, rfl⟩
  have hseq : b.seq = n % 4096 := by
    rw [← hb]
    exact h.sendSeq
  obtain ⟨snd, hsnd⟩ : ∃ snd : SendComm, { w.snd with
      sendSeq := (w.snd.sendSeq + 1) &&& seqMask
      buffer := [⟨b, 0, 0, 0, 0, true⟩]
      events := holdRequests w.snd.events [0] 0 } = snd := ⟨_, rfl⟩
  have hsend : w.step (.send [⟨1, fun _ => 7⟩] [0] [0] 0) = some { w with
      snd := snd
      batches := w.batches ++ [b]
      notes := w.notes ++ [⟨encodeImmData (n % 4096) 0 (genOf (n + 1)), 0, n⟩] } := by
    change w.stepSend _ _ _ _ = _
    unfold World.stepSend
    rw [h.batches, h.record, ← hsnd, ← hseq, ← hb]
    dsimp only
    rw [if_neg (by simp), if_neg (by simp [makeBatch, clipSegment])]
    unfold addBatch
    rw [if_neg (by simp [makeBatch, Batch.nreqs, maxRecvs]), if_neg (by simp [h.buffer, maxInflight])]
    rw [h.buffer]
    rfl
  obtain ⟨c', a, hnote, h1, h2, h3, h4, h5, h6, h7, h8⟩ :=
    processNotification_next h.posted h.recvSeq h.lastAckSeq h.ackInterval
  obtain ⟨w₂, hw₂⟩ : ∃ w₂ : World, { w with
      snd := snd
      batches := w.batches ++ [b]
      notes := w.notes ++ [⟨encodeImmData (n % 4096) 0 (genOf (n + 1)), 0, n⟩] } = w₂ := ⟨_, rfl⟩
  rw [hw₂] at hsend
  have hnotify : w₂.step (.notify n quietEnv) = some (w₂.afterReceive 0 (.success, c', [a])) := by
    change w₂.stepNotify n quietEnv = _
    unfold World.stepNotify
    rw [← hw₂]
    rw [if_neg (by simp [h.rcvOk]), show (w.notes ++ [⟨encodeImmData (n % 4096) 0 (genOf (n + 1)), 0, n⟩])[n]? =
      some ⟨encodeImmData (n % 4096) 0 (genOf (n + 1)), 0, n⟩ by rw [← h.notes]; exact getElem?_concat_length ..]
    dsimp only
    rw [hnote, decodeImmData_encode (by decide)]
  obtain ⟨accepted, haccepted⟩ : ∃ accepted, (w₂.afterReceive 0 (.success, c', [a])).accepted = accepted := ⟨_, rfl⟩
  obtain ⟨w₃, hw₃⟩ : ∃ w₃ : World, { w₂ with rcv := c', acks := w.acks ++ [a], accepted := accepted } = w₃ := ⟨_, rfl⟩
  have hafter : w₂.afterReceive 0 (.success, c', [a]) = w₃ := by
    rw [← hw₃, ← haccepted, ← hw₂]
    rfl
  rw [hafter] at hnotify
  have hack : w₃.step (.ack n 0) = some { w₃ with snd := processAck snd a 0 } := by
    change w₃.stepAck n 0 = _
    unfold World.stepAck
    rw [← hw₃, ← hw₂]
    rw [if_neg (by simp [← hsnd, h.sndOk]), show (w.acks ++ [a])[n]? = some a by
      rw [← h.acks]; exact getElem?_concat_length ..]
  have hbuffer : (processAck snd a 0).buffer = [] := by
    rw [processAck_buffer, ← hsnd]
    rw [dropWhile_cons_of_pos (by rw [hseq, h8, seqLeq, beq_self_eq_true, Bool.true_or])]
    rfl
  have htest : World.step { w₃ with snd := processAck snd a 0 } (.test 0) = some { w₃ with
      snd := processAck snd a 0
      rcv := c'.setReq 0 { c'.reqs 0 with type := .unused } } := by
    change World.stepTest _ 0 = _
    unfold World.stepTest
    rw [← hw₃]
    rw [if_neg (by rw [h1, h3, h7, h.rcvOk]; simp)]
  refine ⟨_, run_next (run_next (run_next (run_next .init _ hsend) _ hnotify) _ hack) _ htest, ?_⟩
  rw [← hw₃, ← hw₂]
  refine ⟨?_, ?_, h4, h5, h6, h7.trans h.rcvOk, ?_, ?_, hbuffer, h.fifo, ?_, ?_, ?_, h.chunks⟩
  · rw [RecvComm.setReq_self]
  · rw [RecvComm.setReq_self]
    exact h2
  · rw [processAck_asyncResult, ← hsnd]
    exact h.sndOk
  · rw [processAck_sendSeq, ← hsnd]
    dsimp only
    rw [and_seqMask, h.sendSeq]
    omega
  · rw [length_append, h.batches, length_singleton]
  · rw [length_append, h.notes, length_singleton]
  · rw [length_append, h.acks, length_singleton]

theorem Idle.transfers (h : Idle n cs w) (k : Nat) : ∃ w', Run w w' ∧ Idle (n + k) cs w' := by
  induction k with
  | zero => exact ⟨w, .init, h⟩
  | succ k ih =>
    obtain ⟨w₁, hrun₁, h₁⟩ := ih
    obtain ⟨w₂, hrun₂, h₂⟩ := h₁.waiting
    obtain ⟨w₃, hrun₃, h₃⟩ := h₂.idle
    exact ⟨w₃, (hrun₁.trans hrun₂).trans hrun₃, h₃⟩

theorem processRetrans_copies (env : Env) (hok : ¬ m.malformed) (hcur : (c.reqs m.hdr.fields.requestSlot).current m = true)
    (htake : (c.reqs m.hdr.fields.requestSlot).takeChunk m = .ok r) :
    ∃ r', (processRetrans c m env).2.1.reqs m.hdr.fields.requestSlot = r' ∧ r'.type = r.type ∧ r'.index = r.index ∧
      r'.copies = r.copies := by
  refine ⟨_, rfl, ?_⟩
  cases retrans_cases c m env with
  | taken r₁ _ htake₁ hreqs =>
    rw [htake] at htake₁
    cases htake₁
    rw [hreqs, update_self]
    exact ⟨rfl, rfl, rfl⟩
  | completed r₁ r₂ _ htake₁ _ hdrop hreqs =>
    rw [htake] at htake₁
    cases htake₁
    rw [hreqs, update_self]
    rcases hdrop with rfl | hdrop
    · exact ⟨rfl, rfl, rfl⟩
    · rw [dropDataEvents_eq hdrop]
      exact ⟨rfl, rfl, rfl⟩
  | old hcur' =>
    rw [hcur] at hcur'
    cases hcur'
  | idle _ _ hwhy =>
    rw [hcur, htake] at hwhy
    rcases hwhy with hbad | hfalse | ⟨e, he⟩
    · exact absurd hbad hok
    · cases hfalse
    · cases he

theorem idle_firstTransfer : ∃ w m, Run (World.start 1 1) w ∧ Idle 1 [m] w ∧
    m.hdr = ⟨retransMagic, 0, 1, 1, 1, 0x10000⟩ ∧ m.byteLen = 33 ∧ m.index = 0 := by
  obtain ⟨acts, hacts⟩ : ∃ acts, firstTransfer ++ [.notify 0 quietEnv, .ack 0 0, .test 0] = acts := ⟨_, rfl⟩
  obtain ⟨w, hw⟩ : ∃ w, exec World.step (World.start 1 1) acts = some w := isSome_iff_exists.1 (by rw [← hacts]; decide)
  have hrcv : (exec World.step (World.start 1 1) acts).map (fun w => ((w.rcv.reqs 0).type, (w.rcv.reqs 0).retransGeneration,
      w.rcv.recvSeq, w.rcv.lastAckSeq, w.rcv.ackInterval, w.rcv.asyncResult)) = some (.unused, 1, 1, 1, 1, .success) := by
    rw [← hacts]
    decide
  have hsnd : (exec World.step (World.start 1 1) acts).map (fun w => (w.snd.asyncResult, w.snd.sendSeq,
      w.snd.buffer.length)) = some (.success, 1, 0) := by
    rw [← hacts]
    decide
  have hlen : (exec World.step (World.start 1 1) acts).map (fun w => (w.fifo.length, w.batches.length, w.notes.length,
      w.acks.length)) = some (1, 1, 1, 1) := by
    rw [← hacts]
    decide
  have hchunk : (exec World.step (World.start 1 1) acts).map (fun w => w.chunks.map fun m => (m.hdr, m.byteLen, m.index)) =
      some [(⟨retransMagic, 0, 1, 1, 1, 0x10000⟩, 33, 0)] := by
    rw [← hacts]
    decide
  rw [hw, map_some, some.injEq] at hrcv hsnd hlen hchunk
  simp only [Prod.mk.injEq] at hrcv hsnd hlen
  obtain ⟨r1, r2, r3, r4, r5, r6⟩ := hrcv
  obtain ⟨s1, s2, s3⟩ := hsnd
  obtain ⟨l1, l2, l3, l4⟩ := hlen
  obtain ⟨m, hm, hfields⟩ := map_eq_singleton_iff.1 hchunk
  simp only [Prod.mk.injEq] at hfields
  refine ⟨w, m, .of_exec (fun _ _ _ => trivial) hw, ?_, hfields⟩
  exact ⟨r1, r2, r3, r4, r5, r6, s1, s2, length_eq_zero_iff.1 s3, l1, l2, l3, l4, hm⟩

/-- **A chunk that is delayed while its slot is posted 4095 more times is copied into the receive posted then.** -/
theorem stale_chunk_copied : ∃ w, Run (World.start 1 1) w ∧ (w.rcv.reqs 0).type = .recv ∧
    (∃ c ∈ (w.rcv.reqs 0).copies, c.index = 0 ∧ (w.rcv.reqs 0).index = 4095) ∧
    ¬ Reassembled w.batches (w.rcv.reqs 0) := by
  obtain ⟨w₁, m, hrun₁, hidle, hhdr, hlen, hindex⟩ := idle_firstTransfer
  obtain ⟨w₂, hrun₂, hidle₂⟩ := hidle.transfers 4094
  obtain ⟨w, hrun₃, hwait⟩ := hidle₂.waiting
  have hr := hwait.posted
  have hslot : m.hdr.fields.requestSlot = 0 := by
    rw [hhdr]
    decide
  have hok : ¬ m.malformed := by
    unfold Chunk.malformed
    rw [hhdr, hlen]
    decide
  have hcur : (w.rcv.reqs 0).current m = true := by
    unfold Request.current Request.matchesGeneration
    rw [hr.type, hr.generation, hr.nreqs, hr.retransSeq, hhdr, genOf_succ]
    decide
  have htake : (w.rcv.reqs 0).takeChunk m = .ok ((w.rcv.reqs 0).copyChunk m) := by
    have hfields : m.hdr.fields = ⟨0, 0, 1, 1, 0, 1⟩ := by
      rw [hhdr]
      decide
    unfold Request.takeChunk
    rw [hfields]
    dsimp only
    rw [hr.capacity, hr.bytes, hr.mask]
    rfl
  rw [← hslot] at hcur htake
  obtain ⟨r', hreq, htype, hidx, hcopies⟩ := processRetrans_copies quietEnv hok hcur htake
  rw [hslot] at hreq htype hidx hcopies
  have hstep : w.step (.chunk 0 quietEnv) = some (w.afterReceive 0 (processRetrans w.rcv m quietEnv)) := by
    change w.stepChunk 0 quietEnv = _
    unfold World.stepChunk
    rw [if_neg (by simp [hwait.rcvOk]), hwait.chunks]
    dsimp only [getElem?_cons_zero]
    rw [hslot]
  have hreq' : (w.afterReceive 0 (processRetrans w.rcv m quietEnv)).rcv.reqs 0 = r' := hreq
  have hcopy : ∃ c ∈ r'.copies, c.index = 0 ∧ r'.index = 4095 := by
    rw [hcopies, hidx]
    exact ⟨_, mem_cons_self, hindex, hr.index⟩
  refine ⟨_, run_next ((hrun₁.trans hrun₂).trans hrun₃) _ hstep, ?_⟩
  rw [hreq']
  refine ⟨htype.trans hr.type, hcopy, fun hre => ?_⟩
  obtain ⟨c, hc, h0, h1⟩ := hcopy
  have := hre.own c hc
  omega

end FlagCX.Ib
