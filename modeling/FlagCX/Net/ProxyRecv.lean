import FlagCX.Net.Chunk

/-!
# The network receive pipeline (`flagcxProxyRecv`)

One call of the progress function makes at most one of its moves: a post, a flush, a copy or a retirement. Between the
post and the flush it tests every request in flight.

* `RecvAllowed` : what must have happened before each event.
* `Receiving` : the invariant between two calls; each part has its step lemma.
* `recvRun_spec` : what every run of calls does.
-/

namespace FlagCX.Net.Proxy
open Lib ProxyArgs List Function

/-- The adaptor of `resources`: RDMA, sockets, or another one, whose `ptrSupport` may have `FLAGCX_PTR_CUDA`. -/
inductive NetKind where
  | rdma
  | socket
  | other (ptrCuda : Bool)
  deriving DecidableEq, Repr

/-- The branches of `flagcxProxyRecv` that ask whether a flush is needed. -/
def NetKind.flushes : NetKind → Bool
  | .rdma => true
  | .socket => false
  | .other ptrCuda => ptrCuda

/-- What a call is answered: by the semaphore, by the device, by the adaptor, and by
`flagcxGetCollectiveWriteVisibilityPolicy`. `test` answers the request of a chunk, `testFlush` that of its flush. -/
structure RecvAnswers where
  pollStart : Bool
  irecv : Result × Option Nat
  test : Nat → Result × Bool
  policy : Result × Bool
  iflush : Result × Option Nat
  testFlush : Result × Bool
  deviceMemcpy : Result
  eventRecord : Result
  eventQuery : Result

/-- The `size_t` that `irecv` reads where `stepSize` is stored: the bytes after the `int` are zero. -/
def sizeAt (stepSize : Int) : Nat := (stepSize % 2 ^ 32).toNat

section Calls
variable (op : Op) (kind : NetKind) (ans : RecvAnswers)

/-- `irecv` of the next chunk, under the context `submit`. -/
def irecvChunk (submit : SubmitContext) : Body Result ProxyArgs := fun s =>
  let slot := s.posted &&& op.sendStepMask
  let sub := s.subs slot
  if ¬ ans.irecv.1.accepted then Body.andThen (cancelSubmit submit) (fun s => (some ans.irecv.1, s)) s
  else
    match ans.irecv.2 with
    | some req =>
      (some .success, { (s.setSub slot { sub with request := .posted req }).log
        (.posted s.posted sub.stepBuff (sizeAt sub.stepSize) req submit.sequence.toNat) with
          netCompleted := update s.netCompleted slot false
          totalPostSize := Chunking.addSize s.totalPostSize sub.stepSize
          posted := s.posted + 1 })
    | none => cancelSubmit submit s

/-- The first part of `flagcxProxyRecv`. -/
def recvPost : Body Result ProxyArgs := fun s =>
  if (s.posted : Int) < s.chunkSteps ∧ (s.posted : Int) - s.copied < op.chunks then
    let slot := s.posted &&& op.sendStepMask
    let s := s.setSub slot { s.subs slot with
      stepSize := op.stepSize s.totalPostSize, stepBuff := op.stepBuff slot s.posted }
    let out := s.collTransport.trackNext
    if out.1 = .inProgress then (some .success, ({ s with collTransport := out.2.1 }).log (.refused out.1))
    else Body.andThen (checkTracked out.1) (irecvChunk op ans out.2.2) { s with collTransport := out.2.1 }
  else (none, s)

def recvPollChunk (sequence : Nat) : Body Result ProxyArgs := fun s =>
  let slot := sequence &&& op.sendStepMask
  if s.netCompleted slot then (none, s)
  else if ¬ (ans.test sequence).1.accepted then (some (ans.test sequence).1, s)
  else if (ans.test sequence).2 then
    (none, { (s.setSub slot { s.subs slot with request := .null }).log
      (.completed sequence (s.subs slot).request) with netCompleted := update s.netCompleted slot true })
  else (none, s)

/-- The second part of `flagcxProxyRecv`. -/
def recvPoll : Body Result ProxyArgs := fun s =>
  Body.each (recvPollChunk op ans) (range' s.postFlush (s.posted - s.postFlush)) s

def flushed (request : Request) (accepted : Option Nat) : Body Result ProxyArgs := fun s =>
  let step := s.postFlush &&& op.sendStepMask
  (some .success, { (s.setSub step { s.subs step with request := request }).log (.flushed s.postFlush accepted) with
    postFlush := s.postFlush + 1 })

def flushChunk : Body Result ProxyArgs :=
  if kind.flushes then
    Body.andThen (check ans.policy.1) <|
      if ¬ ans.policy.2 then flushed op .marker none
      else fun s =>
        if ¬ ans.iflush.1.accepted then (some ans.iflush.1, s)
        else
          match ans.iflush.2 with
          | some req => flushed op (.posted req) (some req) s
          | none => if ans.iflush.1 = .success then flushed op .marker none s else (some .success, s)
  else flushed op .marker none

/-- The third part of `flagcxProxyRecv`. -/
def recvFlush : Body Result ProxyArgs := fun s =>
  if s.postFlush < s.posted then
    if s.netCompleted (s.postFlush &&& op.sendStepMask) then flushChunk op kind ans s else (none, s)
  else (none, s)

def copyChunk (step : Nat) : Body Result ProxyArgs := Body.andThen
    (if op.regBufFlag then fun s =>
      (none, s.log (.copied s.waitCopy (s.subs step).stepBuff s.totalCopySize (toSize (s.subs step).stepSize)))
    else
      Body.andThen (check ans.deviceMemcpy) <| Body.andThen (fun s => (none, s.log
          (.copied s.waitCopy (s.subs step).stepBuff s.totalCopySize (toSize (s.subs step).stepSize)))) <|
          Body.andThen (check ans.eventRecord) fun s =>
            (none, { s with cpEvents := update s.cpEvents step s.waitCopy }))
    fun s => (some .success, { s with
      totalCopySize := Chunking.addSize s.totalCopySize (s.subs step).stepSize, waitCopy := s.waitCopy + 1 })

/-- The fourth part of `flagcxProxyRecv`. -/
def recvCopy : Body Result ProxyArgs := fun s =>
  if s.waitCopy < s.postFlush then
    let step := s.waitCopy &&& op.sendStepMask
    if (s.subs step).request = .marker then copyChunk op ans step (s.log (.visible s.waitCopy))
    else if ¬ ans.testFlush.1.accepted then (some ans.testFlush.1, s)
    else if ans.testFlush.2 then copyChunk op ans step (s.log (.visible s.waitCopy))
    else (none, s)
  else (none, s)

/-- `flagcxCollProxyComplete` for the oldest chunk. -/
def retireChunk : Body Result ProxyArgs := fun s =>
  let out := s.collTransport.complete (s.collTransport.contexts (s.copied % s.collTransport.capacity.toNat)) .success
  Body.andThen (checkTracked out.1) (fun s => (none, { s with copied := s.copied + out.2.1 }))
    { s.log (.retired s.copied) with collTransport := out.2.2 }

/-- The fifth part of `flagcxProxyRecv`. -/
def recvRetire : Body Result ProxyArgs := fun s =>
  if s.copied < s.waitCopy then
    if op.regBufFlag then retireChunk s
    else query ans.eventQuery (s.copied &&& op.sendStepMask) retireChunk s
  else (none, s)

def proxyRecv : ProxyArgs → Result × ProxyArgs :=
  Body.call (fun s =>
    if s.done then (some .success, s)
    else if ¬ ans.pollStart then (some .success, s)
    else if (s.copied : Int) < s.chunkSteps then
      Body.andThen (recvPost op ans) (Body.andThen (recvPoll op ans) (Body.andThen (recvFlush op kind ans)
        (Body.andThen (recvCopy op ans) (recvRetire op ans)))) s
    else finish s) .success

end Calls

/-! ## The invariant -/

/-- What must have happened before an event of the receive pipeline. -/
def RecvAllowed (op : Op) (pre : List Event) : Event → Prop
  | .posted k buff length _ sequence =>
    k = (seen .posted pre).length ∧ k < op.steps ∧ buff = op.place k ∧ length = op.length k ∧ sequence = k ∧
      ∀ j < k, j % op.chunks = k % op.chunks → j ∈ seen .retired pre
  | .completed k request =>
    (∃ req buff length sequence, request = .posted req ∧ .posted k buff length req sequence ∈ pre) ∧ k ∉ seen .completed pre
  | .flushed k _ => k = (seen .flushed pre).length ∧ k ∈ seen .completed pre
  | .visible k => k ∈ seen .flushed pre
  | .copied k buff offset length =>
    k = (seen .copied pre).length ∧ .visible k ∈ pre ∧ buff = op.place k ∧ offset = op.offset k ∧ length = op.length k
  | .settled k => k ∈ seen .copied pre
  | .retired k => k = (seen .retired pre).length ∧ k ∈ seen .copied pre ∧ (op.regBufFlag = false → .settled k ∈ pre)
  | .subCounter => .subCounter ∉ pre ∧ ∀ k < op.steps, k ∈ seen .retired pre
  | _ => False

/-- What the trace says in every state, also after a failed call. -/
structure Received (op : Op) (s : ProxyArgs) : Prop where
  allowed : Justified (RecvAllowed op) s.trace
  counted : s.trace.count .subCounter = if s.done then 1 else 0

/-- The invariant, with `reserved` sequences submitted to the scoreboard ahead of the posts: none between two calls. -/
structure Receiving (op : Op) (reserved : Nat) (s : ProxyArgs) : Prop where
  received : Received op s
  chunkSteps : s.chunkSteps = op.steps
  sequences : op.steps < 2 ^ 64
  copied_le : s.copied ≤ s.waitCopy
  waitCopy_le : s.waitCopy ≤ s.postFlush
  postFlush_le : s.postFlush ≤ s.posted
  posted_le : s.posted ≤ op.steps
  room : s.posted ≤ s.copied + op.chunks
  totalPost : s.totalPostSize = min (op.offset s.posted) op.size
  totalCopy : s.totalCopySize = min (op.offset s.waitCopy) op.size
  seen_posted : seen .posted s.trace = range s.posted
  seen_flushed : seen .flushed s.trace = range s.postFlush
  seen_copied : seen .copied s.trace = range s.waitCopy
  seen_retired : seen .retired s.trace = range s.copied
  stepSize : ∀ k < s.posted, s.copied ≤ k → (s.subs (k % op.chunks)).stepSize = op.length k
  stepBuff : ∀ k < s.posted, s.copied ≤ k → (s.subs (k % op.chunks)).stepBuff = op.place k
  netCompleted : ∀ k < s.posted, s.postFlush ≤ k → s.netCompleted (k % op.chunks) = finished s.trace k
  request : ∀ k < s.posted, s.postFlush ≤ k → RequestOf s.trace k (s.subs (k % op.chunks)).request
  cpEvent : op.regBufFlag = false → ∀ k < s.waitCopy, s.copied ≤ k → s.cpEvents (k % op.chunks) = k
  flight : Flight s.collTransport op.chunks 0 s.copied (s.posted + reserved) fun _ => false

/-- What a call leaves that returned `result`. -/
def Handled (op : Op) (result : Result) (s : ProxyArgs) : Prop :=
  if result.accepted then Receiving op 0 s else Received op s

/-! ## Step lemmas -/

section Steps
variable {op : Op} {reserved : Nat} {s : ProxyArgs}

theorem Received.log (h : Received op s) {e : Event} (he : RecvAllowed op s.trace e) (hne : e ≠ .subCounter) :
    Received op (s.log e) where
  allowed := h.allowed.concat he
  counted := by
    show (s.trace ++ [e]).count .subCounter = _
    have hzero : [e].count Event.subCounter = 0 := count_eq_zero.2 (by simpa using hne.symm)
    rw [count_append, hzero, add_zero]
    exact h.counted

theorem Received.of_trace (h : Received op s) (s' : ProxyArgs) (htrace : s'.trace = s.trace) (hdone : s'.done = s.done) :
    Received op s' where
  allowed := by
    rw [htrace]
    exact h.allowed
  counted := by
    rw [htrace, hdone]
    exact h.counted

theorem Received.posted_of_completed (h : Received op s) {k : Nat} (hk : k ∈ seen .completed s.trace) :
    k ∈ seen .posted s.trace := by
  refine seen_before h.allowed (fun pre e k he hat => ?_) hk
  cases e <;> simp only [Event.chunkAt, Option.some.injEq, reduceCtorEq] at hat
  subst hat
  obtain ⟨⟨req, buff, length, sequence, -, hmem⟩, -⟩ := he
  exact mem_filterMap.2 ⟨_, hmem, rfl⟩

theorem Receiving.posted_not_finished (h : Receiving op reserved s) : finished s.trace s.posted = false := by
  rw [finished, decide_eq_false_iff_not]
  intro hk
  have := h.received.posted_of_completed hk
  rw [h.seen_posted, mem_range] at this
  exact lt_irrefl _ this

theorem Receiving.log_idle (h : Receiving op reserved s) {e : Event} (he : RecvAllowed op s.trace e)
    (hne : e ≠ .subCounter) (hat : ∀ stage, e.chunkAt stage = none) : Receiving op reserved (s.log e) := by
  have hfin : finished (s.log e).trace = finished s.trace := finished_concat _ _ (hat _)
  exact { h with
    received := h.received.log he hne
    seen_posted := (seen_idle (hat _)).trans h.seen_posted
    seen_flushed := (seen_idle (hat _)).trans h.seen_flushed
    seen_copied := (seen_idle (hat _)).trans h.seen_copied
    seen_retired := (seen_idle (hat _)).trans h.seen_retired
    netCompleted := fun k hk hlo => (h.netCompleted k hk hlo).trans (congrFun hfin k).symm
    request := fun k hk hlo => (h.request k hk hlo).concat _ (congrFun hfin k) }

/-! ### Posting -/

section Post
variable {submit : SubmitContext}

theorem Receiving.prepare (h : Receiving op reserved s) (hroom : s.posted < s.copied + op.chunks) (sub : SubArgs) :
    Receiving op reserved (s.setSub (s.posted % op.chunks) sub) := by
  have hcopied := h.copied_le
  have hwait := h.waitCopy_le
  have hflush := h.postFlush_le
  have hother : ∀ k < s.posted, s.copied ≤ k →
      (s.setSub (s.posted % op.chunks) sub).subs (k % op.chunks) = s.subs (k % op.chunks) := fun k hk hlo =>
    update_of_ne (slot_ne (p := s.copied + op.chunks) (by omega) (by omega) hroom (by omega) (ne_of_lt hk)) _ _
  exact { h with
    received := h.received.of_trace _ rfl rfl
    stepSize := fun k hk hlo => by
      rw [hother k hk hlo]
      exact h.stepSize k hk hlo
    stepBuff := fun k hk hlo => by
      rw [hother k hk hlo]
      exact h.stepBuff k hk hlo
    request := fun k hk hlo => by
      have hlo' : s.postFlush ≤ k := hlo
      rw [hother k hk (by omega)]
      exact h.request k hk hlo }

theorem Receiving.reserve (h : Receiving op 0 s) (hlt : s.posted < op.steps) (hroom : s.posted < s.copied + op.chunks) :
    s.collTransport.trackNext.1 = .success ∧
      s.collTransport.trackNext.2.2 = s.collTransport.trackNext.2.1.context (.ofNat s.posted) ∧
      Receiving op 1 { s with collTransport := s.collTransport.trackNext.2.1 } := by
  have hseq := h.sequences
  obtain ⟨hok, hctx, hsame, hflight⟩ := h.flight.trackNext (by omega) (by omega) rfl
  refine ⟨hok, ?_, { h with received := h.received.of_trace _ rfl rfl, flight := hflight }⟩
  rw [hctx, hsame, zero_add]
  rfl

theorem Receiving.cancel_spec (h : Receiving op 1 s) (hsubmit : submit = s.collTransport.context (.ofNat s.posted)) :
    Body.Post (Receiving op 0) (fun _ _ => False) (cancelSubmit submit s) := by
  have hcopied := h.copied_le
  have hwait := h.waitCopy_le
  have hflush := h.postFlush_le
  obtain ⟨hok, -, hflight⟩ := h.flight.cancel (by omega) rfl
  rw [zero_add, ← hsubmit] at hok hflight
  simp only [cancelSubmit, checkTracked]
  rw [if_pos hok]
  exact { h with received := h.received.of_trace _ rfl rfl, flight := hflight }

theorem Receiving.accept (h : Receiving op 1 s) (hfit : op.Fits) (hlt : s.posted < op.steps)
    (hroom : s.posted < s.copied + op.chunks) (req : Nat) :
    Receiving op 0 { (s.setSub (s.posted % op.chunks) ⟨op.length s.posted, op.place s.posted, .posted req⟩).log
        (.posted s.posted (op.place s.posted) (op.length s.posted) req s.posted) with
      netCompleted := update s.netCompleted (s.posted % op.chunks) false
      totalPostSize := Chunking.addSize s.totalPostSize (op.length s.posted)
      posted := s.posted + 1 } := by
  have hcopied := h.copied_le
  have hwait := h.waitCopy_le
  have hflush := h.postFlush_le
  have hallowed : RecvAllowed op s.trace (.posted s.posted (op.place s.posted) (op.length s.posted) req s.posted) := by
    refine ⟨by rw [h.seen_posted, length_range], hlt, rfl, rfl, rfl, fun j hj hslot => ?_⟩
    have := add_le_of_slot_eq hj hslot
    exact (mem_seen_iff_lt h.seen_retired j).2 (by omega)
  have hfin : finished (s.trace ++ [.posted s.posted (op.place s.posted) (op.length s.posted) req s.posted]) =
      finished s.trace := finished_concat _ _ rfl
  have hother : ∀ k < s.posted, s.copied ≤ k → k % op.chunks ≠ s.posted % op.chunks := fun k hk hlo =>
    slot_ne (p := s.copied + op.chunks) (by omega) (by omega) hroom (by omega) (ne_of_lt hk)
  exact { h with
    received := ((h.received.of_trace (s.setSub _ _) rfl rfl).log hallowed (by simp)).of_trace _ rfl rfl
    postFlush_le := Nat.le_succ_of_le hflush
    posted_le := hlt
    room := hroom
    totalPost := by rw [h.totalPost, hfit.total hlt]
    seen_posted := by
      show seen .posted (s.trace ++ [_]) = range (s.posted + 1)
      rw [seen_concat, h.seen_posted, range_succ]
      rfl
    seen_flushed := (seen_idle rfl).trans h.seen_flushed
    seen_copied := (seen_idle rfl).trans h.seen_copied
    seen_retired := (seen_idle rfl).trans h.seen_retired
    stepSize := fun k hk hlo => by
      show (update s.subs (s.posted % op.chunks) _ (k % op.chunks)).stepSize = _
      rcases Nat.lt_succ_iff_lt_or_eq.1 hk with hk | rfl
      · rw [update_of_ne (hother k hk hlo)]
        exact h.stepSize k hk hlo
      · rw [update_self]
    stepBuff := fun k hk hlo => by
      show (update s.subs (s.posted % op.chunks) _ (k % op.chunks)).stepBuff = _
      rcases Nat.lt_succ_iff_lt_or_eq.1 hk with hk | rfl
      · rw [update_of_ne (hother k hk hlo)]
        exact h.stepBuff k hk hlo
      · rw [update_self]
    netCompleted := fun k hk hlo => by
      show update s.netCompleted (s.posted % op.chunks) false (k % op.chunks) = finished (s.trace ++ [_]) k
      have hlo' : s.postFlush ≤ k := hlo
      rw [hfin]
      rcases Nat.lt_succ_iff_lt_or_eq.1 hk with hk | rfl
      · rw [update_of_ne (hother k hk (by omega))]
        exact h.netCompleted k hk hlo
      · rw [update_self, h.posted_not_finished]
    request := fun k hk hlo => by
      show RequestOf (s.trace ++ [_]) k (update s.subs (s.posted % op.chunks) _ (k % op.chunks)).request
      have hlo' : s.postFlush ≤ k := hlo
      rcases Nat.lt_succ_iff_lt_or_eq.1 hk with hk | rfl
      · rw [update_of_ne (hother k hk (by omega))]
        exact (h.request k hk hlo).concat _ (congrFun hfin k)
      · rw [update_self, RequestOf, hfin, h.posted_not_finished]
        exact ⟨req, _, _, _, rfl, mem_append_right _ (mem_singleton_self _)⟩
    flight := h.flight }

theorem sizeAt_length (hfit : op.Fits) (k : Nat) : sizeAt (op.length k) = op.length k := by
  have := hfit.length_lt k
  unfold sizeAt
  omega

theorem Receiving.irecv_spec (h : Receiving op 1 s) (hfit : op.Fits) (ans : RecvAnswers) (hlt : s.posted < op.steps)
    (hroom : s.posted < s.copied + op.chunks) (hsize : (s.subs (s.posted % op.chunks)).stepSize = op.length s.posted)
    (hbuff : (s.subs (s.posted % op.chunks)).stepBuff = op.place s.posted)
    (hsubmit : submit = s.collTransport.context (.ofNat s.posted)) :
    Body.Post (Receiving op 0) (Handled op) (irecvChunk op ans submit s) := by
  have hseq := h.sequences
  have hword : submit.sequence.toNat = s.posted := by
    rw [hsubmit]
    exact toNat_word (by omega)
  simp only [irecvChunk]
  rw [op.and_sendStepMask, hword, hsize, hbuff, sizeAt_length hfit]
  split
  · rename_i hrefused
    refine Body.Post.andThen ((h.cancel_spec hsubmit).mono (fun _ h' => h') fun _ _ hf => hf.elim) fun s' h' => ?_
    rw [Body.post_some, Handled, if_neg hrefused]
    exact h'.received
  · cases ans.irecv.2 with
    | some req => exact h.accept hfit hlt hroom req
    | none => exact (h.cancel_spec hsubmit).mono (fun _ h' => h') fun _ _ hf => hf.elim

theorem Receiving.recvPost_spec (h : Receiving op 0 s) (hfit : op.Fits) (ans : RecvAnswers) :
    Body.Post (Receiving op 0) (Handled op) (recvPost op ans s) := by
  unfold recvPost
  by_cases hc : (s.posted : Int) < s.chunkSteps ∧ (s.posted : Int) - s.copied < op.chunks
  · rw [if_pos hc]
    obtain ⟨hlt, hroom⟩ := hc
    rw [h.chunkSteps] at hlt
    replace hlt : s.posted < op.steps := by omega
    replace hroom : s.posted < s.copied + op.chunks := by omega
    have hsize : op.stepSize s.totalPostSize = op.length s.posted := by rw [h.totalPost, hfit.stepSize hlt]
    rw [op.and_sendStepMask, hsize]
    have hprep := h.prepare hroom { s.subs (s.posted % op.chunks) with
      stepSize := op.length s.posted, stepBuff := op.stepBuff (s.posted % op.chunks) s.posted }
    obtain ⟨hok, hctx, hnext⟩ := hprep.reserve hlt hroom
    rw [if_neg (by rw [hok]; simp)]
    refine Body.Post.andThen (I := fun s' => s' = { s.setSub (s.posted % op.chunks) { s.subs (s.posted % op.chunks) with
      stepSize := op.length s.posted, stepBuff := op.stepBuff (s.posted % op.chunks) s.posted } with
      collTransport := s.collTransport.trackNext.2.1 }) ?_ ?_
    · rw [checkTracked, if_pos hok]
      rfl
    · rintro _ rfl
      refine hnext.irecv_spec hfit ans hlt hroom ?_ ?_ hctx
      · show (update s.subs (s.posted % op.chunks) _ (s.posted % op.chunks)).stepSize = _
        rw [update_self]
        rfl
      · show (update s.subs (s.posted % op.chunks) _ (s.posted % op.chunks)).stepBuff = _
        rw [update_self]
        rfl
  · rw [if_neg hc]
    exact h

end Post

/-! ### Polling -/

section Poll
variable {k : Nat}

theorem Receiving.complete (h : Receiving op 0 s) (hk : k < s.posted) (hlo : s.postFlush ≤ k)
    (hpending : finished s.trace k = false) :
    Receiving op 0 { (s.setSub (k % op.chunks) { s.subs (k % op.chunks) with request := .null }).log
      (.completed k (s.subs (k % op.chunks)).request) with
        netCompleted := update s.netCompleted (k % op.chunks) true } := by
  have hcopied := h.copied_le
  have hwait := h.waitCopy_le
  have hroom := h.room
  have hof := h.request k hk hlo
  rw [RequestOf, hpending] at hof
  obtain ⟨req, buff, length, sequence, hreq, hmem⟩ := hof
  have hnot : k ∉ seen .completed s.trace := by simpa [finished] using hpending
  have hallowed : RecvAllowed op s.trace (.completed k (s.subs (k % op.chunks)).request) :=
    ⟨⟨req, buff, length, sequence, hreq, hmem⟩, hnot⟩
  have hfin : finished (s.trace ++ [.completed k (s.subs (k % op.chunks)).request]) =
      update (finished s.trace) k true := finished_completed _ _ _
  have hother : ∀ j < s.posted, s.postFlush ≤ j → j ≠ k → j % op.chunks ≠ k % op.chunks := fun j hj hjlo hne =>
    slot_ne hj (by omega) hk (by omega) hne
  exact { h with
    received := ((h.received.of_trace (s.setSub _ _) rfl rfl).log hallowed (by simp)).of_trace _ rfl rfl
    seen_posted := (seen_idle rfl).trans h.seen_posted
    seen_flushed := (seen_idle rfl).trans h.seen_flushed
    seen_copied := (seen_idle rfl).trans h.seen_copied
    seen_retired := (seen_idle rfl).trans h.seen_retired
    stepSize := fun j hj hjlo => (update_request ..).1.trans (h.stepSize j hj hjlo)
    stepBuff := fun j hj hjlo => (update_request ..).2.trans (h.stepBuff j hj hjlo)
    netCompleted := fun j hj hjlo => by
      show update s.netCompleted (k % op.chunks) true (j % op.chunks) = finished (s.trace ++ [_]) j
      rw [hfin]
      by_cases he : j = k
      · rw [he, update_self, update_self]
      · rw [update_of_ne (hother j hj hjlo he), update_of_ne he]
        exact h.netCompleted j hj hjlo
    request := fun j hj hjlo => by
      show RequestOf (s.trace ++ [_]) j (update s.subs (k % op.chunks) _ (j % op.chunks)).request
      by_cases he : j = k
      · subst he
        rw [update_self, RequestOf, hfin, update_self]
        rfl
      · rw [update_of_ne (hother j hj hjlo he)]
        refine (h.request j hj hjlo).concat _ ?_
        rw [hfin, update_of_ne he] }

theorem Receiving.recvPollChunk_spec (h : Receiving op 0 s) (ans : RecvAnswers) (hk : k < s.posted) (hlo : s.postFlush ≤ k) :
    Body.Post (fun s' => Receiving op 0 s' ∧ s'.posted = s.posted ∧ s'.postFlush = s.postFlush) (Handled op)
      (recvPollChunk op ans k s) := by
  simp only [recvPollChunk]
  rw [op.and_sendStepMask, h.netCompleted k hk hlo]
  split
  · exact ⟨h, rfl, rfl⟩
  · rename_i hpending
    split
    · rename_i hfailed
      rw [Body.post_some, Handled, if_neg hfailed]
      exact h.received
    · split
      · exact ⟨h.complete hk hlo (by simpa using hpending), rfl, rfl⟩
      · exact ⟨h, rfl, rfl⟩

theorem Receiving.recvPoll_spec (h : Receiving op 0 s) (ans : RecvAnswers) :
    Body.Post (Receiving op 0) (Handled op) (recvPoll op ans s) := by
  have hloop : Body.Post (fun s' => Receiving op 0 s' ∧ s'.posted = s.posted ∧ s'.postFlush = s.postFlush) (Handled op)
      (recvPoll op ans s) := by
    refine Body.Post.each ⟨h, rfl, rfl⟩ ?_
    rintro k hk s' ⟨h', hposted, hflush⟩
    rw [mem_range'_1] at hk
    have hstep := h'.recvPollChunk_spec ans (k := k) (by omega) (by omega)
    rwa [hposted, hflush] at hstep
  exact hloop.mono (fun _ h' => h'.1) fun _ _ h' => h'

end Poll

/-! ### Flushing -/

section Flush

theorem Receiving.flushed_spec (h : Receiving op 0 s) (hlt : s.postFlush < s.posted)
    (hdone : finished s.trace s.postFlush = true) (request : Request) (accepted : Option Nat) :
    Body.Post (Receiving op 0) (Handled op) (flushed op request accepted s) := by
  have hcopied := h.copied_le
  have hwait := h.waitCopy_le
  have hroom := h.room
  have hallowed : RecvAllowed op s.trace (.flushed s.postFlush accepted) :=
    ⟨by rw [h.seen_flushed, length_range], of_decide_eq_true hdone⟩
  have hfin : finished (s.trace ++ [.flushed s.postFlush accepted]) = finished s.trace := finished_concat _ _ rfl
  simp only [flushed]
  rw [op.and_sendStepMask]
  exact { h with
    received := ((h.received.of_trace (s.setSub _ _) rfl rfl).log hallowed (by simp)).of_trace _ rfl rfl
    waitCopy_le := Nat.le_succ_of_le hwait
    postFlush_le := hlt
    seen_posted := (seen_idle rfl).trans h.seen_posted
    seen_flushed := by
      show seen .flushed (s.trace ++ [_]) = range (s.postFlush + 1)
      rw [seen_concat, h.seen_flushed, range_succ]
      rfl
    seen_copied := (seen_idle rfl).trans h.seen_copied
    seen_retired := (seen_idle rfl).trans h.seen_retired
    stepSize := fun j hj hjlo => (update_request ..).1.trans (h.stepSize j hj hjlo)
    stepBuff := fun j hj hjlo => (update_request ..).2.trans (h.stepBuff j hj hjlo)
    netCompleted := fun j hj hjlo =>
      (h.netCompleted j hj (Nat.le_of_succ_le hjlo)).trans (congrFun hfin j).symm
    request := fun j hj hjlo => by
      have hjlo' : s.postFlush + 1 ≤ j := hjlo
      have hj' : j < s.posted := hj
      show RequestOf (s.trace ++ [_]) j (update s.subs (s.postFlush % op.chunks) _ (j % op.chunks)).request
      rw [update_of_ne (slot_ne hj' (by omega) hlt (by omega) (by omega))]
      exact (h.request j hj (Nat.le_of_succ_le hjlo)).concat _ (congrFun hfin j) }

theorem Receiving.recvFlush_spec (h : Receiving op 0 s) (kind : NetKind) (ans : RecvAnswers) :
    Body.Post (Receiving op 0) (Handled op) (recvFlush op kind ans s) := by
  unfold recvFlush
  rw [op.and_sendStepMask]
  split
  · rename_i hlt
    rw [h.netCompleted s.postFlush hlt le_rfl]
    split
    · rename_i hdone
      have hleave := h.flushed_spec hlt hdone
      unfold flushChunk
      split
      · by_cases hp : ans.policy.1.accepted
        · refine Body.Post.andThen (I := fun s' => s' = s) (by simp [check, hp]) ?_
          rintro _ rfl
          split
          · exact hleave .marker none
          · split
            · rename_i hfailed
              rw [Body.post_some, Handled, if_neg hfailed]
              exact h.received
            · cases ans.iflush.2 with
              | some req => exact hleave (.posted req) (some req)
              | none =>
                dsimp only
                split
                · exact hleave .marker none
                · exact h
        · refine Body.Post.andThen (I := fun _ => False) ?_ fun _ hf => hf.elim
          simp only [check, hp, Bool.false_eq_true, if_false, Body.post_some, Handled]
          exact h.received
      · exact hleave .marker none
    · exact h
  · exact h

end Flush

/-! ### Copying -/

section Copy

theorem Receiving.copy_allowed (h : Receiving op reserved s) (hvisible : .visible s.waitCopy ∈ s.trace) :
    RecvAllowed op s.trace (.copied s.waitCopy (op.place s.waitCopy) (op.offset s.waitCopy) (op.length s.waitCopy)) :=
  ⟨by rw [h.seen_copied, length_range], hvisible, rfl, rfl, rfl⟩

section

variable (h : Receiving op 0 s) (hfit : op.Fits)
include h hfit

theorem Receiving.copy (hlt : s.waitCopy < s.postFlush) (hvisible : .visible s.waitCopy ∈ s.trace) (cpEvents : Nat → Nat)
    (hev : op.regBufFlag = false → cpEvents = update s.cpEvents (s.waitCopy % op.chunks) s.waitCopy) :
    Receiving op 0 { s.log (.copied s.waitCopy (op.place s.waitCopy) (op.offset s.waitCopy) (op.length s.waitCopy)) with
      cpEvents := cpEvents
      totalCopySize := Chunking.addSize s.totalCopySize (op.length s.waitCopy)
      waitCopy := s.waitCopy + 1 } := by
  have hcopied := h.copied_le
  have hflush := h.postFlush_le
  have hposted := h.posted_le
  have hroom := h.room
  have hallowed := h.copy_allowed hvisible
  have hfin : finished (s.trace ++
      [.copied s.waitCopy (op.place s.waitCopy) (op.offset s.waitCopy) (op.length s.waitCopy)]) = finished s.trace :=
    finished_concat _ _ rfl
  exact { h with
    received := (h.received.log hallowed (by simp)).of_trace _ rfl rfl
    copied_le := Nat.le_succ_of_le hcopied
    waitCopy_le := hlt
    totalCopy := by rw [h.totalCopy, hfit.total (by omega)]
    seen_posted := (seen_idle rfl).trans h.seen_posted
    seen_flushed := (seen_idle rfl).trans h.seen_flushed
    seen_copied := by
      show seen .copied (s.trace ++ [_]) = range (s.waitCopy + 1)
      rw [seen_concat, h.seen_copied, range_succ]
      rfl
    seen_retired := (seen_idle rfl).trans h.seen_retired
    netCompleted := fun j hj hjlo => (h.netCompleted j hj hjlo).trans (congrFun hfin j).symm
    request := fun j hj hjlo => (h.request j hj hjlo).concat _ (congrFun hfin j)
    cpEvent := fun hreg j hj hjlo => by
      show cpEvents (j % op.chunks) = j
      rw [hev hreg]
      rcases Nat.lt_succ_iff_lt_or_eq.1 hj with hj | rfl
      · have hjlo' : s.copied ≤ j := hjlo
        rw [update_of_ne (slot_ne (p := s.posted) (by omega) (by omega) (by omega) (by omega) (ne_of_lt hj))]
        exact h.cpEvent hreg j hj hjlo
      · rw [update_self] }

theorem Receiving.copyChunk_spec (ans : RecvAnswers) (hlt : s.waitCopy < s.postFlush)
    (hvisible : .visible s.waitCopy ∈ s.trace) :
    Body.Post (Receiving op 0) (Handled op) (copyChunk op ans (s.waitCopy % op.chunks) s) := by
  have hcopied := h.copied_le
  have hflush := h.postFlush_le
  have hposted := h.posted_le
  have hoff : s.totalCopySize = op.offset s.waitCopy := by
    rw [h.totalCopy, min_eq_left (Chunking.lt_steps_iff.1 (by omega)).le]
  have hsize := h.stepSize s.waitCopy (by omega) hcopied
  have hbuff := h.stepBuff s.waitCopy (by omega) hcopied
  have hlen := hfit.toSize_length s.waitCopy
  have hgo : Result.accepted .success = true := rfl
  cases hreg : op.regBufFlag with
  | true =>
    have hstate := h.copy hfit hlt hvisible s.cpEvents (by simp [hreg])
    simpa [Body.andThen, copyChunk, ProxyArgs.log, hreg, hsize, hbuff, hlen, hoff, Handled, hgo] using hstate
  | false =>
    have hstate := h.copy hfit hlt hvisible _ fun _ => rfl
    have hleft := h.received.log (h.copy_allowed hvisible) (by simp)
    by_cases hm : ans.deviceMemcpy.accepted
    · by_cases hr : ans.eventRecord.accepted
      · simpa [Body.andThen, copyChunk, check, ProxyArgs.log, hreg, hsize, hbuff, hlen, hoff, Handled, hgo, hm, hr]
          using hstate
      · simpa [Body.andThen, copyChunk, check, ProxyArgs.log, hreg, hsize, hbuff, hlen, hoff, Handled, hm, hr] using hleft
    · simpa [Body.andThen, copyChunk, check, hreg, Handled, hm] using h.received

theorem Receiving.recvCopy_spec (ans : RecvAnswers) : Body.Post (Receiving op 0) (Handled op) (recvCopy op ans s) := by
  unfold recvCopy
  split
  · rename_i hlt
    dsimp only
    rw [op.and_sendStepMask]
    have hvisible : RecvAllowed op s.trace (.visible s.waitCopy) := (mem_seen_iff_lt h.seen_flushed _).2 hlt
    have hlog : Receiving op 0 (s.log (.visible s.waitCopy)) :=
      h.log_idle hvisible (by simp) fun stage => by cases stage <;> rfl
    have hcopy := hlog.copyChunk_spec hfit ans hlt (mem_append_right _ (mem_singleton_self _))
    split
    · exact hcopy
    · split
      · rename_i hfailed
        rw [Body.post_some, Handled, if_neg hfailed]
        exact h.received
      · split
        · exact hcopy
        · exact h
  · exact h

end

end Copy

/-! ### Retiring -/

section Retire

theorem Receiving.retireChunk_spec (h : Receiving op 0 s) (hlt : s.copied < s.waitCopy)
    (hsettled : op.regBufFlag = false → .settled s.copied ∈ s.trace) :
    Body.Post (Receiving op 0) (Handled op) (retireChunk s) := by
  have hwait := h.waitCopy_le
  have hflush := h.postFlush_le
  have hroom := h.room
  obtain ⟨hok, hone, hflight⟩ := h.flight.completeHead (by omega)
  rw [zero_add] at hok hone hflight
  have hallowed : RecvAllowed op s.trace (.retired s.copied) :=
    ⟨by rw [h.seen_retired, length_range], (mem_seen_iff_lt h.seen_copied _).2 hlt, hsettled⟩
  have hfin : finished (s.trace ++ [.retired s.copied]) = finished s.trace := finished_concat _ _ rfl
  unfold retireChunk
  rw [h.flight.capacity_eq]
  refine Body.Post.andThen (I := fun s' => s' = { s.log (.retired s.copied) with
    collTransport := (s.collTransport.complete (s.collTransport.contexts (s.copied % op.chunks)) .success).2.2 }) ?_ ?_
  · rw [checkTracked, if_pos hok]
    rfl
  · rintro _ rfl
    rw [hone]
    exact { h with
      received := (h.received.log hallowed (by simp)).of_trace _ rfl rfl
      copied_le := hlt
      room := by
        show s.posted ≤ s.copied + 1 + op.chunks
        omega
      seen_posted := (seen_idle rfl).trans h.seen_posted
      seen_flushed := (seen_idle rfl).trans h.seen_flushed
      seen_copied := (seen_idle rfl).trans h.seen_copied
      seen_retired := by
        show seen .retired (s.trace ++ [_]) = range (s.copied + 1)
        rw [seen_concat, h.seen_retired, range_succ]
        rfl
      stepSize := fun k hk hlo => h.stepSize k hk (Nat.le_of_succ_le hlo)
      stepBuff := fun k hk hlo => h.stepBuff k hk (Nat.le_of_succ_le hlo)
      netCompleted := fun k hk hlo => (h.netCompleted k hk hlo).trans (congrFun hfin k).symm
      request := fun k hk hlo => (h.request k hk hlo).concat _ (congrFun hfin k)
      cpEvent := fun hreg k hk hlo => h.cpEvent hreg k hk (Nat.le_of_succ_le hlo)
      flight := hflight }

theorem Receiving.recvRetire_spec (h : Receiving op 0 s) (ans : RecvAnswers) :
    Body.Post (Receiving op 0) (Handled op) (recvRetire op ans s) := by
  unfold recvRetire
  split
  · rename_i hlt
    cases hreg : op.regBufFlag with
    | true => exact h.retireChunk_spec hlt (by simp [hreg])
    | false =>
      rw [op.and_sendStepMask]
      simp only [query, Bool.false_eq_true, if_false]
      rw [h.cpEvent hreg s.copied hlt le_rfl]
      have hmem : RecvAllowed op s.trace (.settled s.copied) := (mem_seen_iff_lt h.seen_copied _).2 hlt
      have hlog : Receiving op 0 (s.log (.settled s.copied)) := h.log_idle hmem (by simp) fun stage => by cases stage <;> rfl
      split
      · exact hlog.retireChunk_spec hlt fun _ => mem_append_right _ (mem_singleton_self _)
      · split
        · exact h
        · rename_i hok hprogress
          rw [Body.post_some, Handled, if_neg (by simp [Result.accepted, hok, hprogress])]
          exact h.received
  · exact h

end Retire

/-! ### The call -/

theorem Receiving.finish (h : Receiving op 0 s) (hge : ¬ (s.copied : Int) < s.chunkSteps) :
    ∃ s', ProxyArgs.finish s = (none, s') ∧ Receiving op 0 s' ∧ s'.done = true := by
  unfold ProxyArgs.finish
  cases hd : s.done with
  | true => exact ⟨s, rfl, h, hd⟩
  | false =>
    rw [h.chunkSteps] at hge
    have hzero : s.trace.count .subCounter = 0 := by
      rw [h.received.counted, hd]
      rfl
    have hallowed : RecvAllowed op s.trace .subCounter :=
      ⟨count_eq_zero.1 hzero, fun k hk => (mem_seen_iff_lt h.seen_retired k).2 (by omega)⟩
    have hfin : finished (s.trace ++ [Event.subCounter]) = finished s.trace := finished_concat _ _ rfl
    refine ⟨_, rfl, { h with
      received := ⟨h.received.allowed.concat hallowed, ?_⟩
      seen_posted := (seen_idle rfl).trans h.seen_posted
      seen_flushed := (seen_idle rfl).trans h.seen_flushed
      seen_copied := (seen_idle rfl).trans h.seen_copied
      seen_retired := (seen_idle rfl).trans h.seen_retired
      netCompleted := fun k hk hlo => (h.netCompleted k hk hlo).trans (congrFun hfin k).symm
      request := fun k hk hlo => (h.request k hk hlo).concat _ (congrFun hfin k) }, rfl⟩
    show (s.trace ++ [Event.subCounter]).count .subCounter = 1
    rw [count_append, hzero]
    rfl

theorem Receiving.proxyRecv_spec (h : Receiving op 0 s) (hfit : op.Fits) (kind : NetKind) (ans : RecvAnswers) :
    Handled op (proxyRecv op kind ans s).1 (proxyRecv op kind ans s).2 := by
  refine Body.Post.call (Q := Receiving op 0) ?_ fun s' h' => h'
  split
  · exact h
  · split
    · exact h
    · split
      · refine (h.recvPost_spec hfit ans).andThen fun s₁ h₁ => ?_
        refine (h₁.recvPoll_spec ans).andThen fun s₂ h₂ => ?_
        refine (h₂.recvFlush_spec kind ans).andThen fun s₃ h₃ => ?_
        exact (h₃.recvCopy_spec hfit ans).andThen fun s₄ h₄ => h₄.recvRetire_spec ans
      · rename_i hge
        obtain ⟨s', hs', hreceiving, -⟩ := h.finish hge
        rw [hs']
        exact hreceiving

theorem Receiving.proxyRecv_done (h : Receiving op 0 s) (kind : NetKind) (ans : RecvAnswers)
    (hstart : ans.pollStart = true) (hall : ∀ k < op.steps, k ∈ seen .retired s.trace) :
    (proxyRecv op kind ans s).2.done = true := by
  have hge : ¬ (s.copied : Int) < s.chunkSteps := by
    intro hlt
    rw [h.chunkSteps] at hlt
    have hretired := hall s.copied (by omega)
    rw [h.seen_retired, mem_range] at hretired
    exact lt_irrefl _ hretired
  obtain ⟨s', hs', -, hd⟩ := h.finish hge
  unfold proxyRecv Body.call
  by_cases hdone : s.done
  · simp [hdone]
  · simp [hdone, hstart, hge, hs', hd]

end Steps

/-! ## Runs -/

/-- Calls of the progress function, up to the first that fails. -/
def recvRun (op : Op) (kind : NetKind) (calls : List RecvAnswers) : Body Result ProxyArgs :=
  Body.each (fun ans => Body.proceed Result.accepted (proxyRecv op kind ans)) calls

section Runs
variable {op : Op} {s : ProxyArgs} {generation orderingKey : UInt64} {submitFlags : UInt32} {groups : Nat → ReleaseGroup}

section

variable (h : prepareProxyOp op generation orderingKey submitFlags groups = .ok s) (hfit : op.Fits)
include h hfit

theorem Receiving.init : Receiving op 0 s := by
  obtain ⟨transport, rfl, hflight⟩ := prepareProxyOp_eq h
  rw [hfit.chunkSteps]
  have hsteps : op.steps < 2 ^ 31 := hfit.2
  exact
    { received := ⟨justified_nil _, rfl⟩, chunkSteps := rfl, sequences := by omega, copied_le := le_rfl,
      waitCopy_le := le_rfl, postFlush_le := le_rfl, posted_le := Nat.zero_le _, room := Nat.zero_le _,
      totalPost := by simp [start, Chunking.offset], totalCopy := by simp [start, Chunking.offset], seen_posted := rfl,
      seen_flushed := rfl, seen_copied := rfl, seen_retired := rfl, stepSize := fun k hk => absurd hk (Nat.not_lt_zero k),
      stepBuff := fun k hk => absurd hk (Nat.not_lt_zero k),
      netCompleted := fun k hk => absurd hk (Nat.not_lt_zero k),
      request := fun k hk => absurd hk (Nat.not_lt_zero k),
      cpEvent := fun _ k hk => absurd hk (Nat.not_lt_zero k), flight := hflight _ }

theorem recvRun_spec (kind : NetKind) (calls : List RecvAnswers) :
    Body.Post (Receiving op 0) (fun _ => Received op) (recvRun op kind calls s) := by
  refine Body.Post.each (Receiving.init h hfit) fun ans _ s' h' => Body.Post.proceed ?_
  have hcall := h'.proxyRecv_spec hfit kind ans
  unfold Handled at hcall
  split
  · rename_i hgo
    rwa [if_pos hgo] at hcall
  · rename_i hgo
    rwa [if_neg hgo] at hcall

end

end Runs

end FlagCX.Net.Proxy
