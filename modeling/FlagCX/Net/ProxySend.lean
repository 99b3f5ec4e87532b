import FlagCX.Net.Chunk

/-!
# The network send pipeline (`flagcxProxySend`)

One call of the progress function stages at most one chunk, posts at most one and tests every request in flight.

* `stage`, `post`, `poll`, `proxySend` : the parts of the call, and the call.
* `relaySend` : how an operation starts for a relay; for the rank itself it is `prepareProxyOp`.
* `SendAllowed` : what must have happened before each event.
* `proxySend_run` : what every run of calls does.
-/

namespace FlagCX.Net.Proxy
open Lib ProxyArgs List Function

/-- What a call is answered: by the semaphore, by the device and by the adaptor. The request of `isend` is null when it was
not accepted; `test` answers the request of a chunk. -/
structure SendAnswers where
  pollStart : Bool
  deviceMemcpy : Result
  eventRecord : Result
  eventQuery : Result
  isend : Result × Option Nat
  test : Nat → Result × Bool

section Calls
variable (op : Op) (ans : SendAnswers)

def stageCopy (step : Nat) (stepSize : Int) : Body Result ProxyArgs := Body.andThen (check ans.deviceMemcpy) <|
    Body.andThen (fun s => (none, s.log (.staged s.waitCopy (op.stepBuff step s.waitCopy) s.totalCopySize (toSize stepSize)))) <|
      Body.andThen (check ans.eventRecord) fun s =>
        (none, { s with cpEvents := update s.cpEvents step s.waitCopy })

/-- A registered buffer is not copied: the slot points at the chunk. -/
def stageRegistered (step : Nat) (stepSize : Int) : Body Result ProxyArgs := fun s =>
  (none, s.log (.staged s.waitCopy (op.stepBuff step s.waitCopy) (op.chunkSize * s.waitCopy) (toSize stepSize)))

/-- The first part of `flagcxProxySend`. -/
def stage : Body Result ProxyArgs := fun s =>
  if (s.waitCopy : Int) < s.chunkSteps ∧ (s.waitCopy : Int) - s.transmitted < op.chunks then
    let step := s.waitCopy &&& op.sendStepMask
    let stepSize := op.stepSize s.totalCopySize
    Body.andThen (if op.regBufFlag then stageRegistered op step stepSize else stageCopy op ans step stepSize)
      (fun s => (none, { s with
        totalCopySize := Chunking.addSize s.totalCopySize stepSize, waitCopy := s.waitCopy + 1 }))
      (s.setSub step { s.subs step with stepSize := stepSize, stepBuff := op.stepBuff step s.waitCopy })
  else (none, s)

/-- `isend` of the chunk to be posted, under the context `submit`. -/
def isendChunk (submit : SubmitContext) : Body Result ProxyArgs := fun s =>
  let step := s.posted &&& op.sendStepMask
  let sub := s.subs step
  if ¬ ans.isend.1.accepted then Body.andThen (cancelSubmit submit) (fun s => (some ans.isend.1, s)) s
  else
    match ans.isend.2 with
    | some req =>
      (none, { (s.setSub step { sub with request := .posted req }).log
        (.posted s.posted sub.stepBuff (toSize sub.stepSize) req submit.sequence.toNat) with posted := s.posted + 1 })
    | none => cancelSubmit submit s

/-- Reserve the next sequence and post the chunk under it. -/
def submitChunk : Body Result ProxyArgs := fun s =>
  let out := s.collTransport.trackNext
  if out.1 = .inProgress then (some .success, ({ s with collTransport := out.2.1 }).log (.refused out.1))
  else Body.andThen (checkTracked out.1) (isendChunk op ans out.2.2) { s with collTransport := out.2.1 }

/-- The second part of `flagcxProxySend`. -/
def post : Body Result ProxyArgs := fun s =>
  if s.posted < s.waitCopy then
    if op.regBufFlag then submitChunk op ans s
    else query ans.eventQuery (s.posted &&& op.sendStepMask)
      (fun s => submitChunk op ans { s with copied := s.copied + 1 }) s
  else (none, s)

/-- `flagcxCollProxyComplete` for a chunk, with the retired prefix added to `transmitted`. -/
def completeChunk (sequence : Nat) : Body Result ProxyArgs := fun s =>
  let index := (s.sequenceBase + .ofNat sequence).toNat % s.collTransport.capacity.toNat
  let out := s.collTransport.complete (s.collTransport.contexts index) .success
  Body.andThen (checkTracked out.1) (fun s => (none, { s with transmitted := s.transmitted + out.2.1 }))
    { s with collTransport := out.2.2 }

def pollChunk (sequence : Nat) : Body Result ProxyArgs := fun s =>
  let slot := sequence &&& op.sendStepMask
  match (s.subs slot).request with
  | .posted req =>
    if ¬ (ans.test sequence).1.accepted then (some (ans.test sequence).1, s)
    else if (ans.test sequence).2 then
      completeChunk sequence ((s.setSub slot { s.subs slot with request := .null }).log (.completed sequence (.posted req)))
    else (none, s)
  | _ => (none, s)

/-- The third part of `flagcxProxySend`. -/
def poll : Body Result ProxyArgs := fun s =>
  Body.each (pollChunk op ans) (range' s.transmitted (s.posted - s.transmitted)) s

def proxySend : ProxyArgs → Result × ProxyArgs :=
  Body.call (fun s =>
    if s.done then (some .success, s)
    else if ¬ ans.pollStart then (some .success, s)
    else if (s.transmitted : Int) < s.chunkSteps then
      Body.andThen (stage op ans) (Body.andThen (post op ans) (poll op ans)) s
    else finish s) .success

end Calls

/-! ## How an operation starts -/

def Op.relayed (op : Op) : Op := { op with regBufFlag := true }

/-- `flagcxNetRelaySendRpc`, its part on the arguments of the operation `op.relayed`: `sequence` is that of the request. -/
def relaySend (op : Op) (sequence generation orderingKey : UInt64) (submitFlags : UInt32)
    (groups : Nat → ReleaseGroup) : Except Result ProxyArgs :=
  if op.size = 0 ∨ op.chunkSize < op.size ∨ sequence = uint64Max then .error .invalidArgument
  else do
    let transport ← CollTransport.transportInit (.ofNat op.chunks) generation orderingKey submitFlags groups
    let scoreboard ← CompletionScoreboard.init (.ofNat op.chunks) generation sequence
    let transport := { transport with tracker := ⟨scoreboard, groups⟩, nextSubmit := sequence }
    return { start 1 transport with sequenceBase := sequence }

/-! ## The invariant -/

/-- What must have happened before an event of the send pipeline, whose first sequence is `base`. -/
def SendAllowed (op : Op) (base : Nat) (pre : List Event) : Event → Prop
  | .staged k buff offset length =>
    k = (seen .staged pre).length ∧ k < op.steps ∧ buff = op.place k ∧ offset = op.offset k ∧ length = op.length k ∧
      ∀ j < k, j % op.chunks = k % op.chunks → j ∈ seen .completed pre
  | .settled k => k ∈ seen .staged pre
  | .posted k buff length _ sequence =>
    k = (seen .posted pre).length ∧ k ∈ seen .staged pre ∧ buff = op.place k ∧ length = op.length k ∧
      sequence = base + k ∧ (op.regBufFlag = false → .settled k ∈ pre)
  | .completed k request =>
    (∃ req buff length sequence, request = .posted req ∧ .posted k buff length req sequence ∈ pre) ∧ k ∉ seen .completed pre
  | .subCounter => .subCounter ∉ pre ∧ ∀ k < op.steps, k ∈ seen .completed pre
  | _ => False

/-- What the trace says in every state, also after a failed call. -/
structure Sent (op : Op) (base : Nat) (s : ProxyArgs) : Prop where
  allowed : Justified (SendAllowed op base) s.trace
  counted : s.trace.count .subCounter = if s.done then 1 else 0

/-- The invariant, with `reserved` sequences submitted to the scoreboard ahead of the posts: none between two calls. -/
structure Sending (op : Op) (base reserved : Nat) (s : ProxyArgs) : Prop where
  sent : Sent op base s
  chunkSteps : s.chunkSteps = op.steps
  sequenceBase : s.sequenceBase = .ofNat base
  sequences : base + op.steps < 2 ^ 64
  transmitted_le : s.transmitted ≤ s.posted
  posted_le : s.posted ≤ s.waitCopy
  waitCopy_le : s.waitCopy ≤ op.steps
  room : s.waitCopy ≤ s.transmitted + op.chunks
  total : s.totalCopySize = min (op.offset s.waitCopy) op.size
  seen_staged : seen .staged s.trace = range s.waitCopy
  seen_posted : seen .posted s.trace = range s.posted
  retired : ∀ k < s.transmitted, k ∈ seen .completed s.trace
  stepSize : ∀ k < s.waitCopy, s.waitCopy ≤ k + op.chunks → (s.subs (k % op.chunks)).stepSize = op.length k
  stepBuff : ∀ k < s.waitCopy, s.waitCopy ≤ k + op.chunks → (s.subs (k % op.chunks)).stepBuff = op.place k
  cpEvent : op.regBufFlag = false → ∀ k < s.waitCopy, s.waitCopy ≤ k + op.chunks → s.cpEvents (k % op.chunks) = k
  request : ∀ k < s.posted, s.posted ≤ k + op.chunks → RequestOf s.trace k (s.subs (k % op.chunks)).request
  flight : Flight s.collTransport op.chunks base s.transmitted (s.posted + reserved) (finished s.trace)

/-- What a call leaves that returned `result`. -/
def Returned (op : Op) (base : Nat) (result : Result) (s : ProxyArgs) : Prop :=
  if result.accepted then Sending op base 0 s else Sent op base s

/-! ## Step lemmas -/

section Steps
variable {op : Op} {base reserved : Nat} {s : ProxyArgs}

theorem Sent.posted_of_completed (h : Sent op base s) {k : Nat} (hk : k ∈ seen .completed s.trace) :
    k ∈ seen .posted s.trace := by
  refine seen_before h.allowed (fun pre e k he hat => ?_) hk
  cases e <;> simp only [Event.chunkAt, Option.some.injEq, reduceCtorEq] at hat
  subst hat
  obtain ⟨⟨req, buff, length, sequence, -, hmem⟩, -⟩ := he
  exact mem_filterMap.2 ⟨_, hmem, rfl⟩

theorem Sent.log (h : Sent op base s) {e : Event} (he : SendAllowed op base s.trace e) (hne : e ≠ .subCounter) :
    Sent op base (s.log e) where
  allowed := h.allowed.concat he
  counted := by
    show (s.trace ++ [e]).count .subCounter = _
    have hzero : [e].count Event.subCounter = 0 := count_eq_zero.2 (by simpa using hne.symm)
    rw [count_append, hzero, add_zero]
    exact h.counted

theorem Sent.of_trace (h : Sent op base s) (s' : ProxyArgs) (htrace : s'.trace = s.trace) (hdone : s'.done = s.done) :
    Sent op base s' where
  allowed := by
    rw [htrace]
    exact h.allowed
  counted := by
    rw [htrace, hdone]
    exact h.counted

theorem Sending.posted_not_finished (h : Sending op base reserved s) : finished s.trace s.posted = false := by
  rw [finished, decide_eq_false_iff_not]
  intro hk
  have := h.sent.posted_of_completed hk
  rw [h.seen_posted, mem_range] at this
  exact lt_irrefl _ this

/-! ### Staging -/

section Stage
variable {stepSize : Int}

theorem Sending.stage_allowed (h : Sending op base reserved s) (hlt : s.waitCopy < op.steps)
    (hroom : s.waitCopy < s.transmitted + op.chunks) :
    SendAllowed op base s.trace
      (.staged s.waitCopy (op.place s.waitCopy) (op.offset s.waitCopy) (op.length s.waitCopy)) := by
  refine ⟨by rw [h.seen_staged, length_range], hlt, rfl, rfl, rfl, fun j hj hslot => ?_⟩
  have := add_le_of_slot_eq hj hslot
  exact h.retired j (by omega)

/-- The state after the next chunk was staged. `cpEvents` is what the events are now recorded for. -/
def stagedState (op : Op) (s : ProxyArgs) (cpEvents : Nat → Nat) : ProxyArgs :=
  { s with
    subs := update s.subs (s.waitCopy % op.chunks)
      { s.subs (s.waitCopy % op.chunks) with stepSize := op.length s.waitCopy, stepBuff := op.place s.waitCopy }
    cpEvents := cpEvents
    totalCopySize := min (op.offset (s.waitCopy + 1)) op.size
    waitCopy := s.waitCopy + 1
    trace := s.trace ++ [.staged s.waitCopy (op.place s.waitCopy) (op.offset s.waitCopy) (op.length s.waitCopy)] }

theorem Sending.staged (h : Sending op base reserved s) (hlt : s.waitCopy < op.steps)
    (hroom : s.waitCopy < s.transmitted + op.chunks) (cpEvents : Nat → Nat)
    (hev : op.regBufFlag = false → cpEvents = update s.cpEvents (s.waitCopy % op.chunks) s.waitCopy) :
    Sending op base reserved (stagedState op s cpEvents) := by
  have hfin : finished (stagedState op s cpEvents).trace = finished s.trace := finished_concat _ _ rfl
  -- the slots of the chunks that stay staged are other slots
  have hother : ∀ k < s.waitCopy, s.waitCopy + 1 ≤ k + op.chunks → k % op.chunks ≠ s.waitCopy % op.chunks :=
    fun k hk hw => slot_ne (by omega) hw (Nat.lt_succ_self _) (by have := op.chunks_pos; omega) (ne_of_lt hk)
  have hreq : ∀ i, ((stagedState op s cpEvents).subs i).request = (s.subs i).request := by
    intro i
    by_cases hi : i = s.waitCopy % op.chunks
    · simp [stagedState, hi]
    · simp [stagedState, hi]
  refine
    { sent := ⟨h.sent.allowed.concat (h.stage_allowed hlt hroom), ?_⟩, chunkSteps := h.chunkSteps,
      sequenceBase := h.sequenceBase, sequences := h.sequences, transmitted_le := h.transmitted_le,
      posted_le := Nat.le_succ_of_le h.posted_le, waitCopy_le := hlt, room := hroom, total := rfl, seen_staged := ?_,
      seen_posted := ?_, retired := ?_, stepSize := ?_, stepBuff := ?_, cpEvent := ?_, request := ?_, flight := ?_ }
  · exact (h.sent.log (h.stage_allowed hlt hroom) (by simp)).counted
  · show seen .staged (s.trace ++ [_]) = range (s.waitCopy + 1)
    rw [seen_concat, h.seen_staged, range_succ]
    rfl
  · show seen .posted (s.trace ++ [_]) = range s.posted
    rw [seen_concat, h.seen_posted]
    exact append_nil _
  · exact fun k hk => seen_mono (subset_append_left _ _) (h.retired k hk)
  · intro k hk hw
    show (update s.subs (s.waitCopy % op.chunks) _ (k % op.chunks)).stepSize = _
    rcases Nat.lt_succ_iff_lt_or_eq.1 hk with hk | rfl
    · rw [update_of_ne (hother k hk hw)]
      exact h.stepSize k hk (Nat.le_of_succ_le hw)
    · rw [update_self]
  · intro k hk hw
    show (update s.subs (s.waitCopy % op.chunks) _ (k % op.chunks)).stepBuff = _
    rcases Nat.lt_succ_iff_lt_or_eq.1 hk with hk | rfl
    · rw [update_of_ne (hother k hk hw)]
      exact h.stepBuff k hk (Nat.le_of_succ_le hw)
    · rw [update_self]
  · intro hreg k hk hw
    show cpEvents (k % op.chunks) = k
    rw [hev hreg]
    rcases Nat.lt_succ_iff_lt_or_eq.1 hk with hk | rfl
    · rw [update_of_ne (hother k hk hw)]
      exact h.cpEvent hreg k hk (Nat.le_of_succ_le hw)
    · rw [update_self]
  · intro k hk hw
    rw [hreq]
    exact (h.request k hk hw).concat _ (congrFun hfin k)
  · rw [hfin]
    exact h.flight

theorem Sending.stage_spec (h : Sending op base 0 s) (hfit : op.Fits) (ans : SendAnswers) :
    Body.Post (Sending op base 0) (Returned op base) (stage op ans s) := by
  unfold stage
  by_cases hc : (s.waitCopy : Int) < s.chunkSteps ∧ (s.waitCopy : Int) - s.transmitted < op.chunks
  · rw [if_pos hc]
    obtain ⟨hlt, hroom⟩ := hc
    rw [h.chunkSteps] at hlt
    replace hlt : s.waitCopy < op.steps := by omega
    replace hroom : s.waitCopy < s.transmitted + op.chunks := by omega
    have hoff : s.totalCopySize = op.offset s.waitCopy := by rw [h.total, min_eq_left (Chunking.lt_steps_iff.1 hlt).le]
    have hsize : op.stepSize s.totalCopySize = op.length s.waitCopy := by rw [h.total, hfit.stepSize hlt]
    have htotal : Chunking.addSize (op.offset s.waitCopy) (op.length s.waitCopy) = min (op.offset (s.waitCopy + 1)) op.size := by
      rw [← hoff, h.total, hfit.total hlt]
    have hplace : op.stepBuff (s.waitCopy % op.chunks) s.waitCopy = op.place s.waitCopy := rfl
    have hmul : op.chunkSize * s.waitCopy = op.offset s.waitCopy := mul_comm _ _
    rw [op.and_sendStepMask, hsize]
    cases hreg : op.regBufFlag with
    | true =>
      have hstate := h.staged hlt hroom s.cpEvents (by simp [hreg])
      simpa [Body.andThen, stageRegistered, ProxyArgs.log, ProxyArgs.setSub, hplace, hmul, hoff, hfit.toSize_length,
        htotal, stagedState] using hstate
    | false =>
      have hstate := h.staged hlt hroom _ fun _ => rfl
      have hslot := h.sent.of_trace (s.setSub (s.waitCopy % op.chunks)
        { s.subs (s.waitCopy % op.chunks) with stepSize := op.length s.waitCopy, stepBuff := op.place s.waitCopy })
        rfl rfl
      have hsent := hslot.log (h.stage_allowed hlt hroom) (by simp)
      by_cases hm : ans.deviceMemcpy.accepted
      · by_cases hr : ans.eventRecord.accepted
        · simpa [Body.andThen, stageCopy, check, ProxyArgs.log, ProxyArgs.setSub, hplace, hoff, hfit.toSize_length,
            htotal, stagedState, hm, hr] using hstate
        · simpa [Body.andThen, stageCopy, check, ProxyArgs.log, ProxyArgs.setSub, hplace, hoff, hfit.toSize_length,
            Returned, hm, hr] using hsent
      · simpa [Body.andThen, stageCopy, check, ProxyArgs.setSub, hplace, Returned, hm] using hslot
  · rw [if_neg hc]
    exact h

end Stage

/-! ### Posting -/

section Post
variable {submit : SubmitContext}

theorem Sending.posted_window (h : Sending op base reserved s) : s.waitCopy ≤ s.posted + op.chunks :=
  h.room.trans (Nat.add_le_add_right h.transmitted_le _)

theorem Sending.settle (h : Sending op base 0 s) (hlt : s.posted < s.waitCopy) (hreg : op.regBufFlag = false) :
    Sending op base 0 (s.log (.settled (s.cpEvents (s.posted % op.chunks)))) ∧
      .settled s.posted ∈ (s.log (.settled (s.cpEvents (s.posted % op.chunks)))).trace := by
  rw [h.cpEvent hreg s.posted hlt h.posted_window]
  have hmem : s.posted ∈ seen .staged s.trace := (mem_seen_iff_lt h.seen_staged _).2 hlt
  have hfin : finished (s.log (.settled s.posted)).trace = finished s.trace := finished_concat _ _ rfl
  have hseen : ∀ stage, seen stage (s.log (.settled s.posted)).trace = seen stage s.trace := by
    intro stage
    show seen stage (s.trace ++ [_]) = _
    rw [seen_concat]
    cases stage <;> exact append_nil _
  refine ⟨?_, mem_append_right _ (mem_singleton_self _)⟩
  exact { h with
    sent := h.sent.log hmem (by simp)
    seen_staged := (hseen _).trans h.seen_staged
    seen_posted := (hseen _).trans h.seen_posted
    retired := fun k hk => by
      rw [hseen]
      exact h.retired k hk
    request := fun k hk hw => (h.request k hk hw).concat _ (congrFun hfin k)
    flight := by
      rw [hfin]
      exact h.flight }

theorem Sending.reserve (h : Sending op base 0 s) (hlt : s.posted < s.waitCopy) :
    s.collTransport.trackNext.1 = .success ∧
      s.collTransport.trackNext.2.2 = s.collTransport.trackNext.2.1.context (.ofNat (base + s.posted)) ∧
      Sending op base 1 { s with collTransport := s.collTransport.trackNext.2.1 } := by
  have hroom := h.room
  have hcopy := h.waitCopy_le
  have hseq := h.sequences
  obtain ⟨hok, hctx, hsame, hflight⟩ := h.flight.trackNext (by omega) (by omega) h.posted_not_finished
  refine ⟨hok, ?_, { h with sent := h.sent.of_trace _ rfl rfl, flight := hflight }⟩
  rw [hctx, hsame]
  rfl

theorem Sending.cancel_spec (h : Sending op base 1 s)
    (hsubmit : submit = s.collTransport.context (.ofNat (base + s.posted))) :
    Body.Post (Sending op base 0) (fun _ _ => False) (cancelSubmit submit s) := by
  subst hsubmit
  obtain ⟨hok, -, hflight⟩ := h.flight.cancel h.transmitted_le h.posted_not_finished
  simp only [cancelSubmit, checkTracked]
  rw [if_pos hok]
  exact { h with sent := h.sent.of_trace _ rfl rfl, flight := hflight }

theorem Sending.accept (h : Sending op base 1 s) (hlt : s.posted < s.waitCopy)
    (hsettled : op.regBufFlag = false → .settled s.posted ∈ s.trace) (req : Nat) :
    Sending op base 0 { (s.setSub (s.posted % op.chunks) ⟨op.length s.posted, op.place s.posted, .posted req⟩).log
      (.posted s.posted (op.place s.posted) (op.length s.posted) req (base + s.posted)) with posted := s.posted + 1 } := by
  have hwin := h.posted_window
  have hallowed : SendAllowed op base s.trace
      (.posted s.posted (op.place s.posted) (op.length s.posted) req (base + s.posted)) :=
    ⟨by rw [h.seen_posted, length_range], (mem_seen_iff_lt h.seen_staged _).2 hlt, rfl, rfl, rfl, hsettled⟩
  have hfin : finished (s.trace ++ [.posted s.posted (op.place s.posted) (op.length s.posted) req (base + s.posted)]) =
      finished s.trace := finished_concat _ _ rfl
  have hsub : ∀ i, (update s.subs (s.posted % op.chunks)
      ⟨op.length s.posted, op.place s.posted, .posted req⟩ i).stepSize = (s.subs i).stepSize ∧
      (update s.subs (s.posted % op.chunks)
      ⟨op.length s.posted, op.place s.posted, .posted req⟩ i).stepBuff = (s.subs i).stepBuff := by
    intro i
    by_cases hi : i = s.posted % op.chunks
    · rw [hi, update_self, h.stepSize s.posted hlt hwin, h.stepBuff s.posted hlt hwin]
      exact ⟨rfl, rfl⟩
    · rw [update_of_ne hi]
      exact ⟨rfl, rfl⟩
  exact { h with
    sent := (h.sent.of_trace (s.setSub _ _) rfl rfl).log hallowed (by simp) |>.of_trace _ rfl rfl
    transmitted_le := Nat.le_succ_of_le h.transmitted_le
    posted_le := hlt
    seen_staged := (seen_idle rfl).trans h.seen_staged
    seen_posted := by
      show seen .posted (s.trace ++ [_]) = range (s.posted + 1)
      rw [seen_concat, h.seen_posted, range_succ]
      rfl
    retired := fun k hk => seen_mono (subset_append_left _ _) (h.retired k hk)
    stepSize := fun k hk hw => (hsub _).1.trans (h.stepSize k hk hw)
    stepBuff := fun k hk hw => (hsub _).2.trans (h.stepBuff k hk hw)
    request := fun k hk hw => by
      show RequestOf (s.trace ++ [_]) k (update s.subs (s.posted % op.chunks) _ (k % op.chunks)).request
      rcases Nat.lt_succ_iff_lt_or_eq.1 hk with hk | rfl
      · rw [update_of_ne (slot_ne (Nat.lt_succ_of_lt hk) hw (Nat.lt_succ_self _)
          (by have := op.chunks_pos; omega) (ne_of_lt hk))]
        exact (h.request k hk (Nat.le_of_succ_le hw)).concat _ (congrFun hfin k)
      · rw [update_self, RequestOf, hfin, h.posted_not_finished]
        exact ⟨req, _, _, _, rfl, mem_append_right _ (mem_singleton_self _)⟩
    flight := by
      show Flight s.collTransport op.chunks base s.transmitted (s.posted + 1) (finished (s.trace ++ [_]))
      rw [hfin]
      exact h.flight }

theorem Sending.isend_spec (h : Sending op base 1 s) (hfit : op.Fits) (ans : SendAnswers) (hlt : s.posted < s.waitCopy)
    (hsettled : op.regBufFlag = false → .settled s.posted ∈ s.trace)
    (hsubmit : submit = s.collTransport.context (.ofNat (base + s.posted))) :
    Body.Post (Sending op base 0) (Returned op base) (isendChunk op ans submit s) := by
  have hseq := h.sequences
  have hcopy := h.waitCopy_le
  have hword : submit.sequence.toNat = base + s.posted := by
    rw [hsubmit]
    exact toNat_word (by omega)
  simp only [isendChunk]
  rw [op.and_sendStepMask, hword, h.stepSize s.posted hlt h.posted_window, h.stepBuff s.posted hlt h.posted_window,
    hfit.toSize_length]
  split
  · rename_i hrefused
    refine Body.Post.andThen ((h.cancel_spec hsubmit).mono (fun _ h' => h') fun _ _ hf => hf.elim) fun s' h' => ?_
    rw [Body.post_some, Returned, if_neg hrefused]
    exact h'.sent
  · cases ans.isend.2 with
    | some req => exact h.accept hlt hsettled req
    | none => exact (h.cancel_spec hsubmit).mono (fun _ h' => h') fun _ _ hf => hf.elim

theorem Sending.submit_spec (h : Sending op base 0 s) (hfit : op.Fits) (ans : SendAnswers) (hlt : s.posted < s.waitCopy)
    (hsettled : op.regBufFlag = false → .settled s.posted ∈ s.trace) :
    Body.Post (Sending op base 0) (Returned op base) (submitChunk op ans s) := by
  obtain ⟨hok, hctx, hnext⟩ := h.reserve hlt
  simp only [submitChunk]
  rw [if_neg (by rw [hok]; simp)]
  refine Body.Post.andThen (I := fun s' => s' = { s with collTransport := s.collTransport.trackNext.2.1 }) ?_ ?_
  · rw [checkTracked, if_pos hok]
    rfl
  · rintro _ rfl
    exact hnext.isend_spec hfit ans hlt hsettled hctx

theorem Sending.post_spec (h : Sending op base 0 s) (hfit : op.Fits) (ans : SendAnswers) :
    Body.Post (Sending op base 0) (Returned op base) (post op ans s) := by
  unfold post
  split
  · rename_i hlt
    cases hreg : op.regBufFlag with
    | true => exact h.submit_spec hfit ans hlt (by simp [hreg])
    | false =>
      rw [op.and_sendStepMask]
      obtain ⟨hsettle, hmem⟩ := h.settle hlt hreg
      have hcopied : Sending op base 0 { s.log (.settled (s.cpEvents (s.posted % op.chunks))) with
        copied := s.copied + 1 } := { hsettle with sent := hsettle.sent.of_trace _ rfl rfl }
      simp only [query, Bool.false_eq_true, if_false]
      split
      · exact hcopied.submit_spec hfit ans hlt fun _ => hmem
      · split
        · exact h
        · rename_i hok hprogress
          rw [Body.post_some, Returned, if_neg (by simp [Result.accepted, hok, hprogress])]
          exact h.sent
  · exact h

end Post

/-! ### Polling -/

section Poll
variable {k req : Nat}

theorem Sending.index_eq (h : Sending op base 0 s) (hk : k < s.posted) :
    (s.sequenceBase + .ofNat k).toNat % s.collTransport.capacity.toNat = (base + k) % op.chunks := by
  have hpos := h.posted_le
  have hcopy := h.waitCopy_le
  have hseq := h.sequences
  rw [h.sequenceBase, ← UInt64.ofNat_add, toNat_word (by omega), h.flight.capacity_eq]

/-- The state after the request of a chunk was found done, with what the scoreboard then answers. -/
def completedState (op : Op) (s : ProxyArgs) (k req : Nat) (out : Nat × CollTransport) : ProxyArgs :=
  { (s.setSub (k % op.chunks) { s.subs (k % op.chunks) with request := .null }).log (.completed k (.posted req)) with
    collTransport := out.2, transmitted := s.transmitted + out.1 }

theorem Sending.complete (h : Sending op base 0 s) (hk : k < s.posted) (hw : s.posted ≤ k + op.chunks)
    (hreq : (s.subs (k % op.chunks)).request = .posted req) :
    let out := s.collTransport.complete (s.collTransport.contexts ((base + k) % op.chunks)) .success
    out.1 = .success ∧ Sending op base 0 (completedState op s k req out.2) := by
  intro out
  have hof := h.request k hk hw
  rw [RequestOf, hreq] at hof
  have hpending : finished s.trace k = false := by
    by_contra hf
    rw [if_pos (by simpa using hf)] at hof
    exact Request.noConfusion hof
  rw [hpending] at hof
  obtain ⟨_, buff, length, sequence, hsame, hmem⟩ := hof
  obtain rfl := Request.posted.inj hsame
  have hnot : k ∉ seen .completed s.trace := by simpa [finished] using hpending
  have hlo : s.transmitted ≤ k := Nat.le_of_not_lt fun hlt => hnot (h.retired k hlt)
  obtain ⟨hok, -, hle, hprefix, hflight⟩ := h.flight.complete hlo hk hpending
  have hallowed : SendAllowed op base s.trace (.completed k (.posted req)) := ⟨⟨req, buff, length, sequence, rfl, hmem⟩, hnot⟩
  have hfin : finished (s.trace ++ [.completed k (.posted req)]) = update (finished s.trace) k true :=
    finished_completed _ _ _
  have hroom := h.room
  refine ⟨hok, { h with
    sent := ((h.sent.of_trace (s.setSub _ _) rfl rfl).log hallowed (by simp)).of_trace _ rfl rfl
    transmitted_le := hle
    room := hroom.trans (Nat.add_le_add_right (Nat.le_add_right _ _) _)
    seen_staged := (seen_idle rfl).trans h.seen_staged
    seen_posted := (seen_idle rfl).trans h.seen_posted
    retired := ?_
    stepSize := fun j hj hjw => (update_request ..).1.trans (h.stepSize j hj hjw)
    stepBuff := fun j hj hjw => (update_request ..).2.trans (h.stepBuff j hj hjw)
    request := ?_
    flight := ?_ }⟩
  · intro j hj
    by_cases hold : j < s.transmitted
    · exact seen_mono (subset_append_left _ _) (h.retired j hold)
    · have hdone := hprefix j (by omega) hj
      rw [← hfin] at hdone
      exact of_decide_eq_true hdone
  · intro j hj hjw
    show RequestOf (s.trace ++ [_]) j (update s.subs (k % op.chunks) _ (j % op.chunks)).request
    by_cases he : j = k
    · subst he
      rw [update_self, RequestOf, hfin, update_self]
      rfl
    · rw [update_of_ne (slot_ne hj hjw hk hw he)]
      refine (h.request j hj hjw).concat _ ?_
      rw [hfin, update_of_ne he]
  · show Flight _ op.chunks base _ s.posted (finished (s.trace ++ [_]))
    rw [hfin]
    exact hflight

theorem Sending.pollChunk_spec (h : Sending op base 0 s) (ans : SendAnswers) (hk : k < s.posted)
    (hw : s.posted ≤ k + op.chunks) :
    Body.Post (fun s' => Sending op base 0 s' ∧ s'.posted = s.posted) (Returned op base) (pollChunk op ans k s) := by
  simp only [pollChunk]
  rw [op.and_sendStepMask]
  cases hreq : (s.subs (k % op.chunks)).request with
  | null => exact ⟨h, rfl⟩
  | marker => exact ⟨h, rfl⟩
  | posted req =>
    dsimp only
    split
    · rename_i hfailed
      rw [Body.post_some, Returned, if_neg hfailed]
      exact h.sent
    · split
      · obtain ⟨hok, hnext⟩ := h.complete hk hw hreq
        have hindex := h.index_eq hk
        simp only [completeChunk, ProxyArgs.log, ProxyArgs.setSub]
        rw [hindex]
        refine Body.Post.andThen (I := fun s' => s' = { s with
          subs := update s.subs (k % op.chunks) ⟨(s.subs (k % op.chunks)).stepSize,
            (s.subs (k % op.chunks)).stepBuff, .null⟩
          trace := s.trace ++ [.completed k (.posted req)]
          collTransport := (s.collTransport.complete
            (s.collTransport.contexts ((base + k) % op.chunks)) .success).2.2 }) ?_ ?_
        · rw [checkTracked, if_pos hok]
          rfl
        · rintro _ rfl
          exact ⟨hnext, rfl⟩
      · exact ⟨h, rfl⟩

theorem Sending.poll_spec (h : Sending op base 0 s) (ans : SendAnswers) :
    Body.Post (Sending op base 0) (Returned op base) (poll op ans s) := by
  have hwin : s.posted ≤ s.transmitted + op.chunks := h.posted_le.trans h.room
  have hloop : Body.Post (fun s' => Sending op base 0 s' ∧ s'.posted = s.posted) (Returned op base) (poll op ans s) := by
    refine Body.Post.each (I := fun s' => Sending op base 0 s' ∧ s'.posted = s.posted) ⟨h, rfl⟩ ?_
    rintro k hk s' ⟨h', hposted⟩
    rw [mem_range'_1] at hk
    have hstep := h'.pollChunk_spec ans (k := k) (by omega) (by omega)
    rwa [hposted] at hstep
  exact hloop.mono (fun _ h' => h'.1) fun _ _ h' => h'

end Poll

/-! ### The call -/

section

variable (h : Sending op base 0 s)
include h

theorem Sending.transmitted_eq (hge : ¬ (s.transmitted : Int) < s.chunkSteps) : s.transmitted = op.steps := by
  rw [h.chunkSteps] at hge
  have := h.transmitted_le
  have := h.posted_le
  have := h.waitCopy_le
  omega

theorem Sending.finish (hge : ¬ (s.transmitted : Int) < s.chunkSteps) :
    ∃ s', ProxyArgs.finish s = (none, s') ∧ Sending op base 0 s' ∧ s'.done = true := by
  unfold ProxyArgs.finish
  cases hd : s.done with
  | true => exact ⟨s, rfl, h, hd⟩
  | false =>
    have hzero : s.trace.count .subCounter = 0 := by
      rw [h.sent.counted, hd]
      rfl
    have hallowed : SendAllowed op base s.trace .subCounter := by
      refine ⟨count_eq_zero.1 hzero, fun k hk => h.retired k ?_⟩
      rwa [h.transmitted_eq hge]
    have hseen : ∀ stage, seen stage (s.trace ++ [Event.subCounter]) = seen stage s.trace := by
      intro stage
      rw [seen_concat]
      cases stage <;> exact append_nil _
    have hfin : finished (s.trace ++ [Event.subCounter]) = finished s.trace := finished_concat _ _ rfl
    refine ⟨_, rfl, { h with
      sent := ⟨h.sent.allowed.concat hallowed, ?_⟩
      seen_staged := (hseen _).trans h.seen_staged
      seen_posted := (hseen _).trans h.seen_posted
      retired := ?_
      request := fun k hk hw => (h.request k hk hw).concat _ (congrFun hfin k)
      flight := ?_ }, rfl⟩
    · show (s.trace ++ [Event.subCounter]).count .subCounter = 1
      rw [count_append, hzero]
      rfl
    · intro k hk
      show k ∈ seen .completed (s.trace ++ [Event.subCounter])
      rw [hseen]
      exact h.retired k hk
    · show Flight _ op.chunks base _ _ (finished (s.trace ++ [Event.subCounter]))
      rw [hfin]
      exact h.flight

theorem Sending.proxySend_spec (hfit : op.Fits) (ans : SendAnswers) :
    Returned op base (proxySend op ans s).1 (proxySend op ans s).2 := by
  refine Body.Post.call (Q := Sending op base 0) ?_ fun s' h' => h'
  split
  · exact h
  · split
    · exact h
    · split
      · refine (h.stage_spec hfit ans).andThen fun s₁ h₁ => ?_
        exact (h₁.post_spec hfit ans).andThen fun s₂ h₂ => h₂.poll_spec ans
      · rename_i hge
        obtain ⟨s', hs', hsending, -⟩ := h.finish hge
        rw [hs']
        exact hsending

theorem Sending.proxySend_done (ans : SendAnswers) (hstart : ans.pollStart = true)
    (hall : ∀ k < op.steps, k ∈ seen .completed s.trace) : (proxySend op ans s).2.done = true := by
  have hge : ¬ (s.transmitted : Int) < s.chunkSteps := by
    intro hlt
    rw [h.chunkSteps] at hlt
    have hdone := hall s.transmitted (by omega)
    have hposted := h.sent.posted_of_completed hdone
    rw [h.seen_posted, mem_range] at hposted
    have hhead := h.flight.head (by omega)
    simp [finished, hdone] at hhead
  obtain ⟨s', hs', -, hd⟩ := h.finish hge
  unfold proxySend Body.call
  by_cases hdone : s.done
  · simp [hdone]
  · simp [hdone, hstart, hge, hs', hd]

end

end Steps

/-! ## Runs -/

/-- The arguments of an operation before the first call, and the first sequence it submits. -/
inductive SendStart : Op → Nat → ProxyArgs → Prop
  | own {op : Op} {s : ProxyArgs} (generation orderingKey : UInt64) (submitFlags : UInt32) (groups : Nat → ReleaseGroup)
    (h : prepareProxyOp op generation orderingKey submitFlags groups = .ok s) : SendStart op 0 s
  | relay {op : Op} {s : ProxyArgs} (sequence generation orderingKey : UInt64) (submitFlags : UInt32)
    (groups : Nat → ReleaseGroup) (h : relaySend op sequence generation orderingKey submitFlags groups = .ok s) :
    SendStart op.relayed sequence.toNat s

/-- Calls of the progress function, up to the first that fails. -/
def sendRun (op : Op) (calls : List SendAnswers) : Body Result ProxyArgs :=
  Body.each (fun ans => Body.proceed Result.accepted (proxySend op ans)) calls

section Runs
variable {op : Op} {base : Nat} {s : ProxyArgs}

theorem Sending.zero {transport : CollTransport} (hsequences : base + op.steps < 2 ^ 64)
    (hflight : Flight transport op.chunks base 0 0 (finished [])) :
    Sending op base 0 { start op.steps transport with sequenceBase := .ofNat base } where
  sent := ⟨justified_nil _, rfl⟩
  chunkSteps := rfl
  sequenceBase := rfl
  sequences := hsequences
  transmitted_le := le_rfl
  posted_le := le_rfl
  waitCopy_le := Nat.zero_le _
  room := Nat.zero_le _
  total := by simp [start, Chunking.offset]
  seen_staged := rfl
  seen_posted := rfl
  retired := fun k hk => absurd hk (Nat.not_lt_zero k)
  stepSize := fun k hk => absurd hk (Nat.not_lt_zero k)
  stepBuff := fun k hk => absurd hk (Nat.not_lt_zero k)
  cpEvent := fun _ k hk => absurd hk (Nat.not_lt_zero k)
  request := fun k hk => absurd hk (Nat.not_lt_zero k)
  flight := hflight

theorem Op.steps_eq_one {op : Op} (hne : op.size ≠ 0) (hle : op.size ≤ op.chunkSize) : op.steps = 1 := by
  have h0 : 0 < op.steps := Chunking.lt_steps_iff.2 (by rw [Chunking.offset, Nat.zero_mul]; omega)
  have h1 : ¬ 1 < op.steps := fun h => by
    have := Chunking.lt_steps_iff.1 h
    rw [Chunking.offset, one_mul] at this
    omega
  omega

theorem Sending.init (h : SendStart op base s) (hfit : op.Fits) : Sending op base 0 s := by
  cases h with
  | own generation orderingKey submitFlags groups h =>
    obtain ⟨transport, rfl, hflight⟩ := prepareProxyOp_eq h
    rw [hfit.chunkSteps]
    have hsteps : op.steps < 2 ^ 31 := hfit.2
    exact Sending.zero (by omega) (hflight _)
  | @relay op _ sequence generation orderingKey submitFlags groups h =>
    unfold relaySend at h
    split at h
    · cases h
    · rename_i hguard
      obtain ⟨hne, hrest⟩ := not_or.1 hguard
      obtain ⟨hle, hmax⟩ := not_or.1 hrest
      have hone : op.relayed.steps = 1 := Op.steps_eq_one hne (Nat.le_of_not_lt hle)
      have hlast : sequence.toNat ≠ 2 ^ 64 - 1 := fun he => hmax (UInt64.toNat_inj.1 he)
      have hlt := UInt64.toNat_lt sequence
      cases ht : CollTransport.transportInit (.ofNat op.chunks) generation orderingKey submitFlags groups with
      | error r =>
        rw [ht] at h
        cases h
      | ok transport =>
        cases hs : CompletionScoreboard.init (.ofNat op.chunks) generation sequence with
        | error r =>
          rw [ht, hs] at h
          cases h
        | ok scoreboard =>
          rw [ht, hs] at h
          obtain rfl := Except.ok.inj h
          have hsmall : sequence.toNat + op.relayed.steps < 2 ^ 64 := by omega
          have hzero := Sending.zero hsmall (flight_init ht hs)
          rw [hone, UInt64.ofNat_toNat] at hzero
          exact hzero

theorem sendRun_spec (h : SendStart op base s) (hfit : op.Fits) (calls : List SendAnswers) :
    Body.Post (Sending op base 0) (fun _ => Sent op base) (sendRun op calls s) := by
  refine Body.Post.each (Sending.init h hfit) fun ans _ s' h' => Body.Post.proceed ?_
  have hcall := h'.proxySend_spec hfit ans
  unfold Returned at hcall
  split
  · rename_i hgo
    rwa [if_pos hgo] at hcall
  · rename_i hgo
    rwa [if_neg hgo] at hcall

end Runs

end FlagCX.Net.Proxy
