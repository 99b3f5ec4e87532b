import FlagCX.Ib.Holds

/-!
# A test tells every request of its completions

`Balanced` adds to `Tracked` that a free request has no event and that a signaled work request names the requests of its
batch, so that a polled completion reaches all of them. Every poll of a test keeps it, and loses no completion when none
is behind a failed one.

* `wrIds_distinct`      : the identifier of a signaled work request is none of the reserved ones.
* `processPolled_keeps` : the completions of one poll of a data CQ.
* `test_tested`         : a whole test, and what its answer says of the events of the request.
-/

namespace FlagCX.Ib
open Lib List Function

/-! ## Identifiers of work requests -/

theorem two_pow_mul_eight (r : Nat) : 2 ^ (r * 8) = 256 ^ r := by
  rw [mul_comm, pow_mul]
  rfl

theorem packWrId_eq (r : Nat) (qs : List Nat) : packWrId r qs = 256 ^ r * Nat.ofDigits 256 qs := by
  induction qs generalizing r with
  | nil => rfl
  | cons q qs ih =>
    rw [packWrId, ih, Nat.ofDigits_cons, Nat.shiftLeft_eq, two_pow_mul_eight, pow_succ]
    ring

theorem sendReqIndex_eq (wrId j : Nat) : sendReqIndex wrId j = wrId / 256 ^ j % 256 := by
  rw [sendReqIndex, Nat.shiftRight_eq_div_pow, two_pow_mul_eight]
  exact Nat.and_two_pow_sub_one_eq_mod _ 8

variable {qs : List Nat}

section

variable (hq : ∀ q ∈ qs, q < maxRequests)
include hq

theorem sendReqIndex_packWrId (j : Nat) : sendReqIndex (packWrId 0 qs) j = qs.getD j 0 := by
  rw [sendReqIndex_eq, packWrId_eq, pow_zero, one_mul]
  exact byte_ofDigits hq j

theorem unpack_packWrId : (range qs.length).map (sendReqIndex (packWrId 0 qs)) = qs := by
  apply ext_getElem
  · simp
  · intro i h1 h2
    rw [getElem_map, getElem_range, sendReqIndex_packWrId hq, getD_eq_getElem _ _ h2]

theorem sendReqIndex_ne (hnodup : qs.Nodup) {j k : Nat} (hjk : j < k) (hk : k < qs.length) :
    sendReqIndex (packWrId 0 qs) j ≠ sendReqIndex (packWrId 0 qs) k := by
  rw [sendReqIndex_packWrId hq, sendReqIndex_packWrId hq, getD_eq_getElem _ _ (hjk.trans hk),
    getD_eq_getElem _ _ hk]
  intro he
  exact absurd ((hnodup.getElem_inj_iff).1 he) (ne_of_lt hjk)

theorem lt_length_of_byte {k : Nat} (h : sendReqIndex (packWrId 0 qs) k ≠ 0) : k < qs.length := by
  by_contra hk
  rw [sendReqIndex_packWrId hq, getD_eq_default _ _ (Nat.le_of_not_lt hk)] at h
  exact h rfl

theorem packWrId_ne (hnodup : qs.Nodup) {wrId : Nat} (h1 : sendReqIndex wrId 1 = 255) (h2 : sendReqIndex wrId 2 = 255) :
    packWrId 0 qs ≠ wrId := by
  rintro rfl
  have hlt := lt_length_of_byte hq (k := 2) (by rw [h2]; decide)
  exact sendReqIndex_ne hq hnodup (by decide) hlt (h1.trans h2.symm)

theorem wrIds_distinct (hnodup : qs.Nodup) :
    isUnsignaledWrId (packWrId 0 qs) = false ∧ packWrId 0 qs ≠ ackSendWrId ∧ packWrId 0 qs ≠ retransWrId := by
  refine ⟨?_, ?_, packWrId_ne hq hnodup (by decide) (by decide)⟩
  · by_contra hu
    rw [Bool.not_eq_false, isUnsignaledWrId, beq_iff_eq] at hu
    have hbyte : ∀ j, unsignaledPrefix >>> (j * 8) &&& 0xff = 255 → sendReqIndex (packWrId 0 qs) j = 255 := by
      intro j hj
      have e := congrArg (fun w => w >>> (j * 8) &&& 0xff) hu
      simp only [Nat.shiftRight_and_distrib, Nat.and_assoc, hj] at e
      exact e
    exact packWrId_ne hq hnodup (hbyte 1 (by decide)) (hbyte 2 (by decide)) rfl
  · intro he
    have h0 : sendReqIndex (packWrId 0 qs) 0 = 0 := by rw [he]; decide
    have h1 : sendReqIndex (packWrId 0 qs) 1 = 0 := by rw [he]; decide
    have h7 : sendReqIndex (packWrId 0 qs) 7 ≠ 0 := by rw [he]; decide
    have hlt := lt_length_of_byte hq h7
    exact sendReqIndex_ne hq hnodup (by decide) (by omega) (h0.trans h1.symm)

end

/-! ## The balance -/

def SignaledWr.keys (wr : SignaledWr) : List (Nat × Dev) := holdKeys wr.requests wr.dev

/-- The identifier names the requests of a batch, and each of them knows how many they are. -/
structure SignaledWr.Names (reqs : Nat → SendRequest) (wr : SignaledWr) : Prop where
  wrId : wr.wrId = packWrId 0 wr.requests
  nodup : wr.requests.Nodup
  ne_nil : wr.requests ≠ []
  length_le : wr.requests.length ≤ maxRecvs
  slots : ∀ q ∈ wr.requests, q < maxRequests
  nreqs : ∀ q ∈ wr.requests, (reqs q).nreqs = wr.requests.length

namespace SendState

/-- The signaled work requests of a request whose completion has not been polled. -/
def onWire (s : SendState) (q : Nat) (d : Dev) : Nat := tally SignaledWr.keys s.wire (q, d)

/-- The completions of a request that were polled and thrown away. -/
def lost (s : SendState) (q : Nat) (d : Dev) : Nat := tally SignaledWr.keys s.dropped (q, d)

/-- The completions counted on a request that it has not been told of. -/
def owed (s : SendState) (q : Nat) (d : Dev) : Nat := s.unposted q d + s.onWire q d + s.lost q d

end SendState

structure Balanced (s : SendState) : Prop where
  tracked : Tracked s.owed s.comm
  idle : ∀ q, (s.reqs q).inUse = false → ∀ d, s.comm.events q d = 0
  wire : ∀ wr ∈ s.wire, wr.Names s.reqs

/-- What completions and retransmission leave alone. An error of the communicator stays, and so does a request without
events. -/
structure Frame (s s' : SendState) : Prop where
  fifo : s'.fifo = s.fifo
  fifoHead : s'.fifoHead = s.fifoHead
  fifoReqs : s'.fifoReqs = s.fifoReqs
  unposted : s'.unposted = s.unposted
  nreqs : ∀ q, (s'.reqs q).nreqs = (s.reqs q).nreqs
  asyncResult : s'.comm.asyncResult = .success → s.comm.asyncResult = .success
  idle : ∀ q, (∀ d, s.comm.events q d = 0) → ∀ d, s'.comm.events q d = 0

/-- The chunks of the active window are those whose completion was not polled. -/
def SendState.Synced (s : SendState) : Prop := s.comm.asyncResult = .success → s.comm.outstandingRetrans = s.chunksOnWire

/-- No completion is thrown away. -/
structure Careful (s s' : SendState) : Prop where
  dropped : s'.dropped = s.dropped
  synced : s.Synced → s'.Synced

/-- The state keeps the balance, and loses nothing if the environment was `quiet`. -/
structure Preserves (quiet : Prop) (s s' : SendState) : Prop where
  balanced : Balanced s'
  frame : Frame s s'
  careful : quiet → Careful s s'

section

variable {s s' s'' : SendState} {quiet quiet' : Prop}

theorem Frame.refl (s : SendState) : Frame s s := ⟨rfl, rfl, rfl, rfl, fun _ => rfl, id, fun _ hq => hq⟩

theorem Frame.trans (h : Frame s s') (h' : Frame s' s'') : Frame s s'' where
  fifo := h'.fifo.trans h.fifo
  fifoHead := h'.fifoHead.trans h.fifoHead
  fifoReqs := h'.fifoReqs.trans h.fifoReqs
  unposted := h'.unposted.trans h.unposted
  nreqs := fun q => (h'.nreqs q).trans (h.nreqs q)
  asyncResult := fun ha => h.asyncResult (h'.asyncResult ha)
  idle := fun q hq => h'.idle q (h.idle q hq)

theorem Careful.refl (s : SendState) : Careful s s := ⟨rfl, id⟩

theorem Careful.trans (h : Careful s s') (h' : Careful s' s'') : Careful s s'' :=
  ⟨h'.dropped.trans h.dropped, fun hs => h'.synced (h.synced hs)⟩

theorem Preserves.refl (h : Balanced s) : Preserves quiet s s := ⟨h, Frame.refl s, fun _ => Careful.refl s⟩

theorem Preserves.trans (h : Preserves quiet s s') (h' : Preserves quiet' s' s'') : Preserves (quiet ∧ quiet') s s'' :=
  ⟨h'.balanced, h.frame.trans h'.frame, fun hq => (h.careful hq.1).trans (h'.careful hq.2)⟩

theorem Preserves.imp (h : Preserves quiet s s') (hq : quiet' → quiet) : Preserves quiet' s s' :=
  ⟨h.balanced, h.frame, fun h' => h.careful (hq h')⟩

variable {r : Result}

theorem recordCommError_success {a : Result} (h : recordCommError a r = .success) : a = .success := by
  by_contra ha
  rw [recordCommError, if_neg ha] at h
  exact ha h

theorem recordCommError_ne (a : Result) (hr : r ≠ .success) : recordCommError a r ≠ .success := by
  intro h
  rw [recordCommError, if_pos (recordCommError_success h)] at h
  exact hr h

theorem recordError_ne (s : SendState) (hr : r ≠ .success) : (s.recordError r).comm.asyncResult ≠ .success :=
  recordCommError_ne _ hr

theorem Balanced.recordError (h : Balanced s) (r : Result) : Preserves True s (s.recordError r) where
  balanced := ⟨h.tracked.congr rfl rfl rfl rfl rfl, h.idle, h.wire⟩
  frame := ⟨rfl, rfl, rfl, rfl, fun _ => rfl, recordCommError_success, fun _ hq => hq⟩
  careful := fun _ => ⟨rfl, fun hs ha => hs (recordCommError_success ha)⟩

/-! ## Completions thrown away -/

section

variable (h : Balanced s) (dev : Dev)
include h dev

theorem discardOne_spec (c : Completion) : ∃ wire dropped, s.discardOne dev c = { s with wire := wire, dropped := dropped } ∧
      Balanced { s with wire := wire, dropped := dropped } ∧ (c.isSignaled = false → dropped = s.dropped) := by
  have hstay : ∃ wire dropped, s = { s with wire := wire, dropped := dropped } ∧
      Balanced { s with wire := wire, dropped := dropped } ∧ (c.isSignaled = false → dropped = s.dropped) :=
    ⟨s.wire, s.dropped, rfl, h, fun _ => rfl⟩
  cases c with
  | unsignaled q failed => exact hstay
  | signaled i failed =>
    rw [SendState.discardOne]
    cases hi : s.wire[i]? with
    | none => exact hstay
    | some wr =>
      dsimp only
      split_ifs with hd
      · have howed : ({ s with wire := s.wire.eraseIdx i, dropped := wr :: s.dropped } : SendState).owed = s.owed := by
          funext q d
          change s.unposted q d + tally _ (s.wire.eraseIdx i) _ + tally _ (wr :: s.dropped) _ =
            s.unposted q d + tally _ s.wire _ + tally _ s.dropped _
          rw [tally_eraseIdx hi, tally_cons]
          omega
        refine ⟨s.wire.eraseIdx i, wr :: s.dropped, rfl, ⟨?_, h.idle, ?_⟩, fun hf => nomatch hf⟩
        · rw [howed]
          exact h.tracked
        · intro wr' hwr'
          exact h.wire wr' (mem_of_mem_eraseIdx hwr')
      · exact hstay

theorem discard_spec (cs : List Completion) : ∃ wire dropped, s.discard dev cs = { s with wire := wire, dropped := dropped } ∧
      Balanced { s with wire := wire, dropped := dropped } ∧
      ((∀ c ∈ cs, c.isSignaled = false) → dropped = s.dropped) := by
  induction cs generalizing s with
  | nil => exact ⟨s.wire, s.dropped, rfl, h, fun _ => rfl⟩
  | cons c cs ih =>
    obtain ⟨wire, dropped, hone, hb, hq⟩ := discardOne_spec h dev c
    obtain ⟨wire', dropped', hrest, hb', hq'⟩ := ih hb
    refine ⟨wire', dropped', ?_, hb', ?_⟩
    · rw [SendState.discard, foldl_cons, hone]
      exact hrest
    · intro hall
      rw [hq' fun c' hc' => hall c' (mem_cons_of_mem c hc'), hq (hall c mem_cons_self)]

theorem discard_keeps (cs : List Completion) : Preserves (∀ c ∈ cs, c.isSignaled = false) s (s.discard dev cs) := by
  obtain ⟨wire, dropped, he, hb, hq⟩ := discard_spec h dev cs
  rw [he]
  exact ⟨hb, ⟨rfl, rfl, rfl, rfl, fun _ => rfl, id, fun _ hz => hz⟩, fun hall => ⟨hq hall, id⟩⟩

theorem discard_comm (cs : List Completion) : (s.discard dev cs).comm = s.comm := by
  obtain ⟨wire, dropped, he, -, -⟩ := discard_spec h dev cs
  rw [he]

end

theorem idle_of_le {events events' : Nat → Dev → Nat} (hle : ∀ q d, events' q d ≤ events q d) (q : Nat)
    (hq : ∀ d, events q d = 0) (d : Dev) : events' q d = 0 := by
  have := hle q d
  rw [hq] at this
  omega

/-! ## Completions recorded -/

theorem update_result (reqs : Nat → SendRequest) (q q' : Nat) (r : Result) :
    (update reqs q { reqs q with result := r } q').nreqs = (reqs q').nreqs ∧
      (update reqs q { reqs q with result := r } q').inUse = (reqs q').inUse := by
  by_cases hq : q' = q
  · subst hq
    rw [update_self]
    exact ⟨rfl, rfl⟩
  · rw [update_of_ne hq]
    exact ⟨rfl, rfl⟩

theorem recordEvents_spec (dev : Dev) (result : Result) (qs : List Nat) (s : SendState)
    (h : ∀ q, qs.count q ≤ s.comm.events q dev) :
    ∃ reqs, recordEvents dev result qs s = (.success, { s with
        comm := { s.comm with events := dropRequests s.comm.events qs dev }, reqs := reqs }) ∧
      ∀ q, (reqs q).nreqs = (s.reqs q).nreqs ∧ (reqs q).inUse = (s.reqs q).inUse := by
  induction qs generalizing s with
  | nil => exact ⟨s.reqs, rfl, fun _ => ⟨rfl, rfl⟩⟩
  | cons q qs ih =>
    have hpos : s.comm.events q dev ≠ 0 := by
      have := h q
      rw [count_cons_self] at this
      omega
    have hleft : ∀ q', qs.count q' ≤ dropRequests s.comm.events [q] dev q' dev := by
      intro q'
      have hq' := h q'
      rw [dropRequests_apply, count_holdKeys, if_pos rfl, count_singleton]
      rw [count_cons] at hq'
      omega
    rw [recordEvents, if_neg hpos]
    obtain ⟨reqs, hcall, hreqs⟩ := ih { s with
      comm := { s.comm with events := dropRequests s.comm.events [q] dev }
      reqs := update s.reqs q { s.reqs q with
        result := if (s.reqs q).result = .success then result else (s.reqs q).result } } hleft
    refine ⟨reqs, hcall, fun q' => ?_⟩
    obtain ⟨h1, h2⟩ := update_result s.reqs q q' (if (s.reqs q).result = .success then result else (s.reqs q).result)
    exact ⟨(hreqs q').1.trans h1, (hreqs q').2.trans h2⟩

theorem processWc_signaled (h : Balanced s) {i : Nat} {wr : SignaledWr} (hi : s.wire[i]? = some wr) (failed : Bool) :
    ∃ s', processWc { s with wire := s.wire.eraseIdx i } wr.dev wr.wrId failed =
        (if failed then .stop true .remoteError (s'.recordError .remoteError) else .next s') ∧ Preserves True s s' := by
  have hnames := h.wire wr (mem_of_getElem? hi)
  obtain ⟨hsig, hack, hret⟩ := wrIds_distinct hnames.slots hnames.nodup
  rw [← hnames.wrId] at hsig hack hret
  have hwire : ∀ q d, s.onWire q d = wr.keys.count (q, d) + tally SignaledWr.keys (s.wire.eraseIdx i) (q, d) :=
    fun q d => tally_eraseIdx hi
  have hcount : ∀ q, wr.requests.count q ≤ s.comm.events q wr.dev := by
    intro q
    have hkeys : wr.keys.count (q, wr.dev) = wr.requests.count q := by rw [SignaledWr.keys, count_holdKeys, if_pos rfl]
    rw [h.tracked.events, SendState.owed, hwire, hkeys]
    omega
  -- the first request of the batch is in use and says how many there are
  have hfirst : sendReqIndex wr.wrId 0 ∈ wr.requests := by
    rw [hnames.wrId, sendReqIndex_packWrId hnames.slots]
    obtain ⟨q, qs, hqs⟩ := exists_cons_of_ne_nil hnames.ne_nil
    rw [hqs]
    exact mem_cons_self
  have huse : (s.reqs (sendReqIndex wr.wrId 0)).inUse ≠ false := by
    intro hf
    have hpos := count_pos_iff.2 hfirst
    have hle := hcount (sendReqIndex wr.wrId 0)
    rw [h.idle _ hf] at hle
    omega
  have hn := hnames.nreqs _ hfirst
  have hlen : wr.requests.length ≠ 0 := fun hz => hnames.ne_nil (length_eq_zero_iff.1 hz)
  have hunpack := unpack_packWrId hnames.slots
  rw [← hnames.wrId] at hunpack
  obtain ⟨reqs, hcall, hreqs⟩ := recordEvents_spec wr.dev (if failed then .remoteError else .success) wr.requests
    { s with wire := s.wire.eraseIdx i } hcount
  have hrecord : recordDataCompletion { s with wire := s.wire.eraseIdx i } wr.wrId wr.dev
      (if failed then .remoteError else .success) = (.success, { s with
        wire := s.wire.eraseIdx i
        comm := { s.comm with events := dropRequests s.comm.events wr.requests wr.dev }
        reqs := reqs }) := by
    unfold recordDataCompletion
    rw [if_neg huse, hn, if_neg (by have := hnames.length_le; omega), hunpack]
    exact hcall
  refine ⟨{ s with
    wire := s.wire.eraseIdx i
    comm := { s.comm with events := dropRequests s.comm.events wr.requests wr.dev }
    reqs := reqs }, ?_, ?_, ?_, fun _ => ⟨rfl, id⟩⟩
  · unfold processWc
    rw [hsig, if_neg (by simp), if_neg hack, if_neg hret, hrecord]
  · refine ⟨⟨?_, h.tracked.window, h.tracked.windowNodup, h.tracked.entries⟩, ?_, ?_⟩
    · intro q d
      have hev := h.tracked.events q d
      rw [SendState.owed, hwire] at hev
      change dropRequests s.comm.events wr.requests wr.dev q d = s.unposted q d + tally _ (s.wire.eraseIdx i) _ +
        s.lost q d + s.comm.heldByEntries q d + s.comm.heldByWindow q d
      rw [dropRequests_apply]
      change _ - wr.keys.count (q, d) = _
      omega
    · intro q hq d
      rw [(hreqs q).2] at hq
      have hz := h.idle q hq d
      have hle := dropRequests_le s.comm.events wr.requests wr.dev q d
      change dropRequests s.comm.events wr.requests wr.dev q d = 0
      omega
    · intro wr' hwr'
      have hn' := h.wire wr' (mem_of_mem_eraseIdx hwr')
      exact ⟨hn'.wrId, hn'.nodup, hn'.ne_nil, hn'.length_le, hn'.slots,
        fun q hq => ((hreqs q).1).trans (hn'.nreqs q hq)⟩
  · exact ⟨rfl, rfl, rfl, rfl, fun q => (hreqs q).1, id, idle_of_le (dropRequests_le s.comm.events wr.requests wr.dev)⟩

def Polled.state : Polled → SendState
  | .next s => s
  | .stop _ _ s => s

/-- What the completions of a poll keep. The call returns done with an error of the communicator only. -/
structure Polled.Preserves (quiet : Prop) (s : SendState) (p : Polled) : Prop where
  keeps : Ib.Preserves quiet s p.state
  done : ∀ r s', p = .stop true r s' → s'.comm.asyncResult ≠ .success
  refused : ∀ r s', p = .stop false r s' → r ≠ .success

theorem Polled.Preserves.next (h : Ib.Preserves quiet s s') : Polled.Preserves quiet s (.next s') :=
  ⟨h, fun _ _ he => (nomatch he), fun _ _ he => (nomatch he)⟩

theorem Polled.Preserves.trans {p : Polled} (h : Ib.Preserves quiet s s') (hp : Polled.Preserves quiet' s' p) :
    Polled.Preserves (quiet ∧ quiet') s p :=
  ⟨h.trans hp.keeps, hp.done, hp.refused⟩

theorem Polled.Preserves.imp {p : Polled} (h : Polled.Preserves quiet s p) (hq : quiet' → quiet) : Polled.Preserves quiet' s p :=
  ⟨h.keeps.imp hq, h.done, h.refused⟩

theorem Balanced.setResult (h : Balanced s) (q : Nat) (r : Result) :
    Preserves True s { s with reqs := update s.reqs q { s.reqs q with result := r } } where
  balanced := by
    refine ⟨h.tracked, fun q' hq' => ?_, fun wr hwr => ?_⟩
    · rw [(update_result s.reqs q q' r).2] at hq'
      exact h.idle q' hq'
    · have hn := h.wire wr hwr
      exact ⟨hn.wrId, hn.nodup, hn.ne_nil, hn.length_le, hn.slots,
        fun q' hq' => (update_result s.reqs q q' r).1.trans (hn.nreqs q' hq')⟩
  frame := ⟨rfl, rfl, rfl, rfl, fun q' => (update_result s.reqs q q' r).1, id, fun _ hq => hq⟩
  careful := fun _ => ⟨rfl, id⟩

theorem isUnsignaledWrId_unsignaledWrId (q : Nat) : isUnsignaledWrId (unsignaledWrId q) = true := by
  rw [isUnsignaledWrId, unsignaledWrId, beq_iff_eq]
  apply Nat.eq_of_testBit_eq
  intro i
  rw [Nat.testBit_and, Nat.testBit_or]
  cases unsignaledPrefix.testBit i <;> simp

theorem processWc_unsignaled (h : Balanced s) (dev : Dev) (q : Nat) (failed : Bool) :
    processWc s dev (unsignaledWrId q) failed = .next s ∨
    failed = true ∧ ∃ done r s', processWc s dev (unsignaledWrId q) failed = .stop done r s' ∧
      Polled.Preserves True s (.stop done r s') := by
  unfold processWc
  rw [isUnsignaledWrId_unsignaledWrId, if_pos rfl]
  cases failed with
  | false => exact .inl rfl
  | true =>
    refine .inr ⟨rfl, ?_⟩
    dsimp only
    rw [if_pos rfl]
    split
    · exact ⟨_, _, _, rfl, .refl h, fun _ _ he => (nomatch he), fun _ _ he => by cases he; simp⟩
    · refine ⟨_, _, _, rfl, ?_, fun _ _ he => ?_, fun _ _ he => (nomatch he)⟩
      · have hset := h.setResult (unsignaledWrId q &&& 0xff)
          (if (s.reqs (unsignaledWrId q &&& 0xff)).result = .success then .remoteError
            else (s.reqs (unsignaledWrId q &&& 0xff)).result)
        exact (hset.trans (hset.balanced.recordError .remoteError)).imp fun _ => ⟨trivial, trivial⟩
      · cases he
        exact recordError_ne _ (by simp)

def QuietPoll : List Completion → Prop
  | [] => True
  | c :: cs => (c.failed = true → ∀ c' ∈ cs, c'.isSignaled = false) ∧ QuietPoll cs

theorem Polled.Preserves.behind {done : Bool} (h : Polled.Preserves True s (.stop done r s')) (dev : Dev)
    (cs : List Completion) :
    Polled.Preserves (∀ c ∈ cs, c.isSignaled = false) s (.stop done r (s'.discard dev cs)) := by
  have hb : Balanced s' := h.keeps.balanced
  have hd := discard_keeps hb dev cs
  refine ⟨(h.keeps.trans hd).imp fun hq => ⟨trivial, hq⟩, ?_, ?_⟩
  · intro r' s'' he
    cases he
    rw [discard_comm hb]
    exact h.done _ _ rfl
  · intro r' s'' he
    cases he
    exact h.refused _ _ rfl

theorem processPolled_keeps (dev : Dev) (cs : List Completion) (h : Balanced s) :
    (processPolled dev cs s).Preserves (QuietPoll cs) s := by
  induction cs generalizing s with
  | nil => exact .next (.refl h)
  | cons c cs ih =>
    have hskip : Polled.Preserves (QuietPoll (c :: cs)) s (processPolled dev cs s) := (ih h).imp fun hq => hq.2
    cases c with
    | unsignaled q failed =>
      rw [processPolled]
      obtain hnext | ⟨hf, done, r, s', hstop, hk⟩ := processWc_unsignaled h dev q failed
      · rw [hnext]
        exact hskip
      · rw [hstop]
        exact (hk.behind dev cs).imp fun hq => hq.1 hf
    | signaled i failed =>
      rw [processPolled]
      cases hi : s.wire[i]? with
      | none => exact hskip
      | some wr =>
        dsimp only
        split_ifs with hd
        · subst hd
          obtain ⟨s', hcall, hk⟩ := processWc_signaled h hi failed
          rw [hcall]
          cases failed with
          | false => exact (Polled.Preserves.trans hk (ih hk.balanced)).imp fun hq => ⟨trivial, hq.2⟩
          | true =>
            have hstop : Polled.Preserves True s (.stop true .remoteError (s'.recordError .remoteError)) := by
              refine ⟨(hk.trans (hk.balanced.recordError .remoteError)).imp fun _ => ⟨trivial, trivial⟩, ?_, ?_⟩
              · intro r s'' he
                cases he
                exact recordError_ne s' (by simp)
              · exact fun _ _ he => (nomatch he)
            exact (hstop.behind wr.dev cs).imp fun hq => hq.1 rfl
        · exact hskip

theorem pollDevs_keeps (round : Dev → List Completion) (ds : List Dev) (h : Balanced s) :
    (pollDevs round ds s).Preserves (∀ d, QuietPoll (round d)) s := by
  induction ds generalizing s with
  | nil => exact .next (.refl h)
  | cons d ds ih =>
    have hk := processPolled_keeps d (round d) h
    rw [pollDevs]
    cases hp : processPolled d (round d) s with
    | next s' =>
      rw [hp] at hk
      exact (Polled.Preserves.trans hk.keeps (ih hk.keeps.balanced)).imp fun hq => ⟨hq d, hq⟩
    | stop done r s' =>
      rw [hp] at hk
      exact hk.imp fun hq => hq d

/-! ## The retransmission CQ and the timeout -/

theorem Balanced.withComm (h : Balanced s) {c : SendComm} (ht : Tracked s.owed c)
    (hidle : ∀ q, (∀ d, s.comm.events q d = 0) → ∀ d, c.events q d = 0) : Balanced { s with comm := c } :=
  ⟨ht, fun q hq => hidle q (h.idle q hq), h.wire⟩

/-- The completion is handled without an error. -/
def RetransWc.clean : RetransWc → Prop
  | .window failed => failed = false
  | .ack creditIndex _ _ repost => creditIndex < ackBufCount ∧ repost = .success
  | .other => False

theorem processRetransWc_keeps (h : Balanced s) (wc : RetransWc) : Preserves True s (processRetransWc s wc).2 := by
  cases wc with
  | other => exact h.recordError .remoteError
  | ack creditIndex msg nowUs repost =>
    rw [processRetransWc]
    split_ifs
    · exact h.recordError .internalError
    · refine ⟨h.withComm (h.tracked.processAck msg nowUs) (idle_of_le (processAck_events_le s.comm msg nowUs)),
        ⟨rfl, rfl, rfl, rfl, fun _ => rfl, ?_, idle_of_le (processAck_events_le s.comm msg nowUs)⟩, fun _ => ⟨rfl, ?_⟩⟩
      · rw [processAck_asyncResult]
        exact id
      · intro hs
        change (processAck s.comm msg nowUs).asyncResult = .success →
          (processAck s.comm msg nowUs).outstandingRetrans = s.chunksOnWire
        rw [processAck_asyncResult, processAck_outstanding]
        exact hs
  | window failed =>
    rw [processRetransWc]
    split_ifs with h0
    · exact .refl h
    · have hidle := idle_of_le (completeRetransWindow_events_le s.comm failed)
      have hb := h.withComm (h.tracked.windowCompletes failed) hidle
      have hbal : Balanced { s with
          comm := completeRetransWindow s.comm failed, chunksOnWire := s.chunksOnWire - 1 } := ⟨hb.tracked, hb.idle, hb.wire⟩
      refine ⟨hbal, ⟨rfl, rfl, rfl, rfl, fun _ => rfl, ?_, hidle⟩, fun _ => ⟨rfl, ?_⟩⟩
      · obtain ⟨-, hc⟩ | ⟨-, -, hc⟩ | ⟨-, -, hc⟩ := completeRetransWindow_cases s.comm failed
        all_goals simp only [hc]
        · exact recordCommError_success
        · exact id
        · cases failed with
          | false => exact id
          | true => exact recordCommError_success
      · intro hs ha
        obtain ⟨-, hc⟩ | ⟨h1, -, hc⟩ | ⟨h1, hf, hc⟩ := completeRetransWindow_cases s.comm failed
        all_goals simp only [hc] at ha ⊢
        · exact absurd ha (recordCommError_ne _ (by simp))
        · rw [hs ha]
        · cases failed with
          | true => exact absurd ha (recordCommError_ne _ (by simp))
          | false => rw [← hs ha, hf rfl]

/-- No completion of a retransmitted chunk is behind one that ends the poll. -/
def QuietRetrans : List RetransWc → Prop
  | [] => True
  | wc :: wcs => (¬ wc.clean → wcs.countP RetransWc.isWindow = 0) ∧ QuietRetrans wcs

theorem processRetransWc_clean (s : SendState) {wc : RetransWc} (hc : wc.clean) (hr : (processRetransWc s wc).1 ≠ .success) :
    (processRetransWc s wc).2.comm.asyncResult ≠ .success := by
  cases wc with
  | other => exact absurd hc id
  | ack creditIndex msg nowUs repost =>
    rw [processRetransWc, if_neg (by have := hc.1; omega)] at hr
    exact absurd hc.2 hr
  | window failed =>
    have hf : failed = false := hc
    subst hf
    rw [processRetransWc] at hr ⊢
    split_ifs at hr ⊢ with h0
    · exact absurd rfl hr
    · obtain ⟨-, he⟩ | ⟨h1, -, -⟩ | ⟨h1, -, -⟩ := completeRetransWindow_cases s.comm false
      · simp only [he]
        exact recordCommError_ne _ (by simp)
      · exact absurd (by rw [windowResult, if_neg (by omega)]; rfl) hr
      · exact absurd (by rw [windowResult, if_neg (by omega)]; rfl) hr

theorem pollRetransCq_keeps (wcs : List RetransWc) (h : Balanced s) :
    Preserves (QuietRetrans wcs) s (pollRetransCq wcs s).2 := by
  induction wcs generalizing s with
  | nil => exact .refl h
  | cons wc wcs ih =>
    have hk := processRetransWc_keeps h wc
    rw [pollRetransCq]
    cases hout : processRetransWc s wc with
    | mk r s' =>
      rw [hout] at hk
      have hb : Balanced s' := hk.balanced
      by_cases hr : r = .success
      · subst hr
        exact (hk.trans (ih hb)).imp fun hq => ⟨trivial, hq.2⟩
      · have hend : Preserves (QuietRetrans (wc :: wcs)) s' { s' with
            chunksOnWire := s'.chunksOnWire - wcs.countP RetransWc.isWindow } := by
          refine ⟨⟨hb.tracked, hb.idle, hb.wire⟩, ⟨rfl, rfl, rfl, rfl, fun _ => rfl, id, fun _ hz => hz⟩, fun hq => ⟨rfl, ?_⟩⟩
          intro hs ha
          by_cases hc : wc.clean
          · have hne := processRetransWc_clean s hc (by rw [hout]; exact hr)
            rw [hout] at hne
            exact absurd ha hne
          · rw [hq.1 hc, Nat.sub_zero]
            exact hs ha
        have hall := (hk.trans hend).imp fun hq => ⟨trivial, hq⟩
        cases r with
        | success => exact absurd rfl hr
        | _ => exact hall

theorem pollRetransCqs_keeps (polled : Dev → List RetransWc) (ds : List Dev) (h : Balanced s) :
    Preserves (∀ d, QuietRetrans (polled d)) s (pollRetransCqs polled ds s).2 := by
  induction ds generalizing s with
  | nil => exact .refl h
  | cons d ds ih =>
    have hk := pollRetransCq_keeps (polled d) h
    rw [pollRetransCqs]
    split
    · rename_i s' hout
      rw [hout] at hk
      exact (hk.trans (ih hk.balanced)).imp fun hq => ⟨hq d, hq⟩
    · rename_i hout
      rw [hout] at hk
      exact hk.imp fun hq => hq d

theorem preCheckTimeout_keeps (env : TestEnv) (h : Balanced s) : Preserves True s (preCheckTimeout s env).2 := by
  unfold preCheckTimeout
  split_ifs
  · have hres := checkTimeoutFrom_resends h.tracked env.resendUs env.post s.comm.buffer.length 0
    split
    · rename_i comm sent hout
      rw [hout] at hres
      have hb := h.withComm hres.tracked hres.idle
      refine ⟨⟨hb.tracked, hb.idle, hb.wire⟩, ⟨rfl, rfl, rfl, rfl, fun _ => rfl, ?_, hres.idle⟩, fun _ => ⟨rfl, fun hs ha => ?_⟩⟩
      · exact hres.asyncResult.symm.trans
      · rw [hres.outstanding, hs (hres.asyncResult.symm.trans ha)]
    · rename_i r comm sent hne hout
      rw [hout] at hres
      have hb := h.withComm hres.tracked hres.idle
      have hb' : Balanced { s with comm := comm, chunksOnWire := s.chunksOnWire + sent.length } :=
        ⟨hb.tracked, hb.idle, hb.wire⟩
      have hk : Preserves True s { s with comm := comm, chunksOnWire := s.chunksOnWire + sent.length } := by
        refine ⟨hb', ⟨rfl, rfl, rfl, rfl, fun _ => rfl, ?_, hres.idle⟩, fun _ => ⟨rfl, fun hs ha => ?_⟩⟩
        · exact hres.asyncResult.symm.trans
        · rw [hres.outstanding, hs (hres.asyncResult.symm.trans ha)]
      exact (hk.trans (hb'.recordError r)).imp fun _ => ⟨trivial, trivial⟩
  · exact .refl h

/-! ## Tests -/

variable {q : Nat}

theorem Balanced.release (h : Balanced s) (hq : ∀ d, s.comm.events q d = 0) : Preserves quiet s (s.release q) := by
  have hsame : ∀ q', (update s.reqs q { s.reqs q with inUse := false } q').nreqs = (s.reqs q').nreqs := by
    intro q'
    by_cases he : q' = q
    · subst he
      rw [update_self]
    · rw [update_of_ne he]
  refine ⟨⟨h.tracked, fun q' hq' => ?_, fun wr hwr => ?_⟩, ⟨rfl, rfl, rfl, rfl, hsame, id, fun _ hz => hz⟩, fun _ => ⟨rfl, id⟩⟩
  · by_cases he : q' = q
    · subst he
      exact hq
    · apply h.idle q'
      change (update s.reqs q { s.reqs q with inUse := false } q').inUse = false at hq'
      rwa [update_of_ne he] at hq'
  · have hn := h.wire wr hwr
    exact ⟨hn.wrId, hn.nodup, hn.ne_nil, hn.length_le, hn.slots, fun q' hq' => (hsame q').trans (hn.nreqs q' hq')⟩

/-- What a test of `q` keeps, and what its answer says of the events of `q`. -/
structure Tested (quiet : Prop) (s : SendState) (q : Nat) (out : TestOut × SendState) : Prop where
  keeps : Preserves quiet s out.2
  done : out.1.done = true → out.2.comm.asyncResult ≠ .success ∨ ∀ d, out.2.comm.events q d = 0
  pending : out.1 = ⟨false, .success⟩ → ∃ d, out.2.comm.events q d ≠ 0

theorem Tested.of_keeps {out : TestOut × SendState} (h : Preserves quiet s s') (ht : Tested quiet' s' q out) :
    Tested (quiet ∧ quiet') s q out :=
  ⟨h.trans ht.keeps, ht.done, ht.pending⟩

theorem events_zero_iff (s : SendState) (q : Nat) :
    (s.comm.events q 0 = 0 ∧ s.comm.events q 1 = 0) ↔ ∀ d, s.comm.events q d = 0 := by
  rw [Fin.forall_fin_two]

theorem tested_done (h : Balanced s) (hz : s.comm.events q 0 = 0 ∧ s.comm.events q 1 = 0) :
    Tested quiet s q (⟨true, (s.reqs q).result⟩, s.release q) :=
  ⟨h.release ((events_zero_iff s q).1 hz), fun _ => .inr ((events_zero_iff s q).1 hz), fun he => nomatch he⟩

theorem tested_pending (h : Balanced s) (hz : ¬ (s.comm.events q 0 = 0 ∧ s.comm.events q 1 = 0)) :
    Tested quiet s q (⟨false, .success⟩, s) := by
  rw [events_zero_iff, not_forall] at hz
  exact ⟨.refl h, fun he => (nomatch he), fun _ => hz⟩

theorem testLoop_tested (lanes : Lanes) (q : Nat) (rounds : List (Dev → List Completion)) (h : Balanced s) :
    Tested (∀ round ∈ rounds, ∀ d, QuietPoll (round d)) s q (testLoop lanes q rounds s) := by
  induction rounds generalizing s with
  | nil =>
    rw [testLoop]
    split_ifs with hz
    · exact tested_done h hz
    · exact tested_pending h hz
  | cons round rounds ih =>
    rw [testLoop]
    split_ifs with hz hempty
    · exact tested_done h hz
    · exact tested_pending h hz
    · have hk := pollDevs_keeps round lanes.devs h
      cases hp : pollDevs round lanes.devs s with
      | next s' =>
        rw [hp] at hk
        have ht := Tested.of_keeps hk.keeps (ih hk.keeps.balanced)
        exact ⟨ht.keeps.imp fun hq => ⟨hq round mem_cons_self, fun r hr => hq r (mem_cons_of_mem _ hr)⟩,
          ht.done, ht.pending⟩
      | stop done r s' =>
        rw [hp] at hk
        refine ⟨hk.keeps.imp fun hq => hq round mem_cons_self, fun hd => .inl ?_, fun he => ?_⟩
        · have hd' : done = true := hd
          subst hd'
          exact hk.done r s' rfl
        · obtain ⟨rfl, rfl⟩ := (TestOut.mk.injEq _ _ _ _).mp he
          exact absurd rfl (hk.refused _ s' rfl)

def TestEnv.Quiet (env : TestEnv) : Prop :=
  (∀ d, QuietRetrans (env.retrans d)) ∧ ∀ round ∈ env.rounds, ∀ d, QuietPoll (round d)

theorem testPreCheck_keeps (lanes : Lanes) (q : Nat) (env : TestEnv) (h : Balanced s) :
    Preserves (∀ d, QuietRetrans (env.retrans d)) s (testPreCheck lanes s q env).2 := by
  unfold testPreCheck
  split_ifs
  · exact .refl h
  · have hk := pollRetransCqs_keeps env.retrans lanes.devs h
    split
    · rename_i s' hout
      rw [hout] at hk
      exact (hk.trans (preCheckTimeout_keeps env hk.balanced)).imp fun hq => ⟨hq, trivial⟩
    · rename_i hout
      rw [hout] at hk
      exact hk

theorem test_tested (lanes : Lanes) (q : Nat) (env : TestEnv) (h : Balanced s) :
    Tested env.Quiet s q (test lanes s q env) := by
  unfold test
  split_ifs with ha
  · exact ⟨.refl h, fun _ => .inl ha.1, fun he => nomatch he⟩
  · have hk := testPreCheck_keeps lanes q env h
    cases hout : testPreCheck lanes s q env with
    | mk r s' =>
      rw [hout] at hk
      by_cases hr : r = .success
      · subst hr
        exact Tested.of_keeps hk (testLoop_tested lanes q env.rounds hk.balanced)
      · have hend : Tested env.Quiet s q (⟨false, r⟩, s') := by
          refine ⟨hk.imp fun hq => hq.1, fun hd => (nomatch hd), fun he => ?_⟩
          obtain ⟨-, he⟩ := (TestOut.mk.injEq _ _ _ _).mp he
          exact absurd he hr
        cases r with
        | success => exact absurd rfl hr
        | _ => exact hend

end

end FlagCX.Ib
