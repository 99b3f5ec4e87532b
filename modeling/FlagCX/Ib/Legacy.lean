import FlagCX.Ib.Sends

/-!
# Retransmission over the data queue pairs

`flagcxIbRetransResendViaSend` without a retransmission queue pair, as its caller `flagcxIbRetransCheckTimeout` runs it,
and the sender's part of `flagcxIbCommonTestDataQp`, which polls the same completion queues.

* `resendViaSend`, `checkTimeout`, `testWcs` : the calls.
* `accounted_of_clean` : the books are right in every run in which a full queue gives up one batch at most, of successful
  retransmissions only.
-/

namespace FlagCX.Ib.Legacy
open Lib List Option

/-- `ibv_wc`; `ok` when its status is `IBV_WC_SUCCESS`. -/
structure Wc where
  wrId : Nat
  ok : Bool
  deriving DecidableEq, Repr

def Wc.isRetrans (w : Wc) : Bool := w.wrId = retransWrId

/-- `flagcxIbRetransEntry` of a packet; `data` is its address unless it is NULL. -/
structure RetransEntry where
  seq : Nat
  size : Nat
  data : Option Nat
  lkeys : Int → Nat
  remoteAddr : Nat
  sendTimeUs : Nat
  retryCount : Nat

/-- One of `base.qps`; `valid` when it has a queue pair. -/
structure Qp where
  valid : Bool
  devIndex : Int

/-- The fields of `flagcxIbSendComm` and its `flagcxIbRetransState`; `retransHdrMr` is the key of the region and `hasCq` tells
which devices have a completion queue. -/
structure SendComm where
  enabled : Bool
  retransHdrMr : Option Nat
  retransHdrPool : Nat → RetransHdr
  buffer : List RetransEntry
  rtoUs : Nat
  maxRtoUs : Nat
  maxRetry : Nat
  retransQPIndex : Nat
  qps : List Qp
  ndevs : Int
  hasCq : Int → Bool
  outstandingSends : Int
  outstandingRetrans : Int
  maxOutstanding : Int

/-- The work request of a retransmission. -/
structure SendWr where
  qp : Nat
  hdr : RetransHdr
  hdrLkey : Nat
  addr : Nat
  length : Nat
  lkey : Nat

/-- What the NIC answers during a call: to the first post, to each poll (`none` where `ibv_poll_cq` fails) and to the second
post. `stack` is the memory from `wcs` on. -/
structure Answers where
  first : Bool
  stack : Nat → Wc
  polls : List (Option (List Wc))
  second : Bool
  eight : polls.length = 8
  fits : ∀ b, some b ∈ polls → b.length ≤ 64

/-! ## Freeing space -/

/-- The locals of the polls. `filled` entries of `wcs` hold a completion, and `polled` are all that the polls gave. -/
structure Freed where
  wcs : Nat → Wc
  nCqe : Nat
  totalPolled : Nat
  filled : Nat
  polled : List Wc

/-- One poll; where it fails `nCqe` stays. -/
def Freed.poll (f : Freed) : Option (List Wc) → Freed
  | none => { f with totalPolled := f.totalPolled + f.nCqe }
  | some b => {
      wcs := fun i => b.getD i (f.wcs i)
      nCqe := b.length
      totalPolled := f.totalPolled + b.length
      filled := max f.filled b.length
      polled := f.polled ++ b }

def freeSpace : List (Option (List Wc)) → Freed → Freed
  | [], f => f
  | p :: ps, f => if (f.poll p).nCqe = 0 then f.poll p else freeSpace ps (f.poll p)

/-- How often the loop over `wcs` takes `outstandingRetrans` down. -/
def Freed.settled (f : Freed) : Nat := (range f.totalPolled).countP fun i => (f.wcs i).isRetrans && (f.wcs i).ok

/-! ## The calls -/

structure Resent where
  result : Result
  comm : SendComm
  posted : List SendWr
  freed : Freed

def notPolled (stack : Nat → Wc) : Freed := ⟨stack, 0, 0, 0, []⟩

def SendComm.posted (c : SendComm) (seq sentUs : Nat) : SendComm :=
  { c with
    buffer := c.buffer.modify (c.buffer.findIdx (·.seq = seq)) fun e =>
      { e with retryCount := e.retryCount + 1, sendTimeUs := sentUs }
    outstandingRetrans := c.outstandingRetrans + 1 }

def postRetrans (c : SendComm) (seq : Nat) (wr : SendWr) (devIndex : Int) (nic : Answers) (sentUs : Nat) : Resent :=
  if nic.first then ⟨.success, c.posted seq sentUs, [wr], notPolled nic.stack⟩
  else if c.hasCq devIndex = false then ⟨.success, c, [], notPolled nic.stack⟩
  else
    let f := freeSpace nic.polls (notPolled nic.stack)
    if f.totalPolled = 0 then ⟨.success, c, [], f⟩
    else
      let c := { c with outstandingRetrans := c.outstandingRetrans - f.settled }
      if nic.second then ⟨.success, c.posted seq sentUs, [wr], f⟩ else ⟨.success, c, [], f⟩

/-- `flagcxIbRetransResendViaSend` -/
def resendViaSend (c : SendComm) (seq : Nat) (nic : Answers) (sentUs : Nat) : Resent :=
  let idle := notPolled nic.stack
  if c.enabled = false then ⟨.success, c, [], idle⟩
  else
    match c.retransHdrMr, c.buffer.find? (·.seq = seq) with
    | none, _ => ⟨.success, { c with enabled := false }, [], idle⟩
    | some _, none => ⟨.success, c, [], idle⟩
    | some hdrLkey, some e =>
      if e.data = none ∨ e.size = 0 then ⟨.internalError, c, [], idle⟩
      else if c.maxOutstanding ≤ c.outstandingSends + c.outstandingRetrans then ⟨.success, c, [], idle⟩
      else
        let qpIndex := c.retransQPIndex % c.qps.length
        let c := { c with retransQPIndex := c.retransQPIndex + 1 }
        let qp := c.qps.getD qpIndex ⟨false, 0⟩
        if qp.valid = false ∨ qp.devIndex < 0 ∨ c.ndevs ≤ qp.devIndex then ⟨.internalError, c, [], idle⟩
        else
          let hdr := { c.retransHdrPool (seq % 32) with
            magic := retransMagic, seq := seq, size := e.size, remoteAddr := e.remoteAddr }
          let c := { c with retransHdrPool := Function.update c.retransHdrPool (seq % 32) hdr }
          postRetrans c seq ⟨qpIndex, hdr, hdrLkey, e.data.getD 0, e.size, e.lkeys qp.devIndex⟩ qp.devIndex nic sentUs

/-- The loop of `flagcxIbRetransCheckTimeout`, which ends with the first entry that has waited long enough. -/
def checkEntries (c : SendComm) (nowUs : Nat) (nic : Answers) (sentUs : Nat) : List RetransEntry → Resent
  | [] => ⟨.success, c, [], notPolled nic.stack⟩
  | e :: es =>
    if c.rtoUs ≤ (nowUs + 2 ^ 64 - e.sendTimeUs) % 2 ^ 64 then
      if c.maxRetry ≤ e.retryCount then ⟨.remoteError, c, [], notPolled nic.stack⟩
      else
        let o := resendViaSend c e.seq nic sentUs
        match o.result with
        | .success => { o with comm := { o.comm with rtoUs := if c.maxRtoUs < c.rtoUs * 2 then c.maxRtoUs else c.rtoUs * 2 } }
        | .inProgress => { o with result := .success }
        | _ => o
    else checkEntries c nowUs nic sentUs es

/-- `flagcxIbRetransCheckTimeout` -/
def checkTimeout (c : SendComm) (nowUs : Nat) (nic : Answers) (sentUs : Nat) : Resent :=
  if c.enabled = false then ⟨.success, c, [], notPolled nic.stack⟩ else checkEntries c nowUs nic sentUs c.buffer

/-- The completions of one poll of `flagcxIbCommonTestDataQp`, with `flagcxIbrcProcessWc`; `record` tells whether
`flagcxIbCommonRecordDataCompletion` succeeds. A return leaves the rest behind. -/
def testWcs (record : Wc → Bool) : List Wc → SendComm → SendComm
  | [], c => c
  | w :: ws, c =>
    if isUnsignaledWrId w.wrId then if w.ok then testWcs record ws c else c
    else if w.isRetrans then
      testWcs record ws (if 0 < c.outstandingRetrans then { c with outstandingRetrans := c.outstandingRetrans - 1 } else c)
    else if w.ok && record w then testWcs record ws c else c

/-! ## Runs -/

/-- A sender, the retransmissions posted and polled, the entries without a completion that the loop over `wcs` has read, and
the data completions that its polls took from the queue. -/
structure World where
  comm : SendComm
  posted : List SendWr
  polled : Nat
  readOutside : Nat
  discarded : List Wc

def World.init (c : SendComm) : World := ⟨c, [], 0, 0, []⟩

/-- A step; `other` is anything else the sender does. -/
inductive Act where
  | timeout (nowUs sentUs : Nat) (nic : Answers)
  | test (record : Wc → Bool) (wcs : List Wc)
  | other (comm : SendComm)

/-- A posted retransmission completes once at most. -/
def World.step (w : World) : Act → Option World
  | .timeout nowUs sentUs nic =>
    let o := checkTimeout w.comm nowUs nic sentUs
    let polled := w.polled + o.freed.polled.countP Wc.isRetrans
    if polled ≤ w.posted.length then
      some {
        comm := o.comm
        posted := w.posted ++ o.posted
        polled := polled
        readOutside := w.readOutside + (o.freed.totalPolled - o.freed.filled)
        discarded := w.discarded ++ o.freed.polled.filter fun v => !v.isRetrans }
    else none
  | .test record wcs =>
    let polled := w.polled + wcs.countP Wc.isRetrans
    if polled ≤ w.posted.length then some { w with comm := testWcs record wcs w.comm, polled := polled } else none
  | .other comm =>
    if comm.outstandingRetrans = w.comm.outstandingRetrans then some { w with comm := comm } else none

/-- The books are right, and the polls of the retransmissions have read and taken nothing else. -/
structure World.Accounted (w : World) : Prop where
  count : w.comm.outstandingRetrans = w.posted.length - w.polled
  nonneg : 0 ≤ w.comm.outstandingRetrans
  inside : w.readOutside = 0
  kept : w.discarded = []

/-- Of the polls of a full queue one gives completions at most, of successful retransmissions only, and the next one
succeeds. -/
def Clean : List (Option (List Wc)) → Prop
  | some (v :: b) :: p :: _ => p = some [] ∧ ∀ u ∈ v :: b, u.isRetrans && u.ok
  | _ => True

/-- `flagcxIbCommonTestDataQp` goes on after this completion. -/
def passes (record : Wc → Bool) (v : Wc) : Bool := v.isRetrans || v.ok && (isUnsignaledWrId v.wrId || record v)

/-- The queue is not full or its polls are clean, and no completion of a retransmission is left behind. -/
def Act.Clean : Act → Prop
  | .timeout _ _ nic => nic.first ∨ Legacy.Clean nic.polls
  | .test record wcs => ∀ v ∈ wcs.dropWhile (passes record), v.isRetrans = false
  | .other _ => True

/-! ## What a call does -/

section Calls
variable {c c' : SendComm} {nic : Answers} {sentUs : Nat} {stack : Nat → Wc}

/-- A call counts what it has posted and what the loop over `wcs` has found; it polls for a full queue only. -/
structure Resent.Counts (o : Resent) (c : SendComm) (nic : Answers) : Prop where
  count : o.comm.outstandingRetrans = c.outstandingRetrans - o.freed.settled + o.posted.length
  freed : o.freed = notPolled nic.stack ∨ nic.first = false ∧ o.freed = freeSpace nic.polls (notPolled nic.stack)

@[simp] theorem settled_notPolled : (notPolled stack).settled = 0 := rfl

theorem counts_idle (r : Result) (h : c'.outstandingRetrans = c.outstandingRetrans) :
    Resent.Counts ⟨r, c', [], notPolled nic.stack⟩ c nic := ⟨by simp [h], .inl rfl⟩

theorem postRetrans_counts (seq : Nat) (wr : SendWr) (devIndex : Int) :
    (postRetrans c seq wr devIndex nic sentUs).Counts c nic := by
  unfold postRetrans
  split
  · exact ⟨by simp [SendComm.posted], .inl rfl⟩
  · rename_i hfirst
    have hfull : nic.first = false := by simpa using hfirst
    dsimp only
    split
    · exact counts_idle _ rfl
    · split
      · rename_i hzero
        exact ⟨by simp [Freed.settled, hzero], .inr ⟨hfull, rfl⟩⟩
      · split
        · exact ⟨by simp [SendComm.posted], .inr ⟨hfull, rfl⟩⟩
        · exact ⟨by simp, .inr ⟨hfull, rfl⟩⟩

theorem resendViaSend_counts (c : SendComm) (seq : Nat) (nic : Answers) (sentUs : Nat) :
    (resendViaSend c seq nic sentUs).Counts c nic := by
  unfold resendViaSend
  dsimp only
  split
  · exact counts_idle _ rfl
  · split
    · exact counts_idle _ rfl
    · exact counts_idle _ rfl
    · split_ifs
      · exact counts_idle _ rfl
      · exact counts_idle _ rfl
      · exact counts_idle _ rfl
      · exact ⟨(postRetrans_counts ..).count, (postRetrans_counts ..).freed⟩

theorem checkEntries_counts (c : SendComm) (nowUs : Nat) (nic : Answers) (sentUs : Nat) (es : List RetransEntry) :
    (checkEntries c nowUs nic sentUs es).Counts c nic := by
  induction es with
  | nil => exact counts_idle _ rfl
  | cons e es ih =>
    unfold checkEntries
    have hresend := resendViaSend_counts c e.seq nic sentUs
    split
    · split
      · exact counts_idle _ rfl
      · dsimp only
        split
        · exact ⟨hresend.count, hresend.freed⟩
        · exact ⟨hresend.count, hresend.freed⟩
        · exact hresend
    · exact ih

theorem checkTimeout_counts (c : SendComm) (nowUs : Nat) (nic : Answers) (sentUs : Nat) :
    (checkTimeout c nowUs nic sentUs).Counts c nic := by
  unfold checkTimeout
  split
  · exact counts_idle _ rfl
  · exact checkEntries_counts ..

end Calls

/-! ## Clean polls -/

/-- The loop over `wcs` has found every completion that was polled. -/
structure Freed.Right (f : Freed) : Prop where
  inside : f.totalPolled ≤ f.filled
  settled : f.settled = f.polled.countP Wc.isRetrans
  kept : (f.polled.filter fun v => !v.isRetrans) = []

theorem right_notPolled (stack : Nat → Wc) : (notPolled stack).Right := ⟨le_rfl, rfl, rfl⟩

theorem countP_range_getD (p : Wc → Bool) (stack : Nat → Wc) (b : List Wc) :
    ((range b.length).countP fun i => p (b.getD i (stack i))) = b.countP p := by
  have hmap : ((range b.length).map fun i => b.getD i (stack i)) = b := by
    apply ext_getElem
    · simp
    · intro i _ h
      simp [h]
  conv_rhs => rw [← hmap, countP_map]
  rfl

theorem freeSpace_right (stack : Nat → Wc) {polls : List (Option (List Wc))} (h : polls.length = 8) (hclean : Clean polls) :
    (freeSpace polls (notPolled stack)).Right := by
  obtain _ | ⟨_ | _ | ⟨v, b⟩, _ | ⟨p, ps⟩⟩ := polls
  · cases h
  · cases h
  · exact right_notPolled stack
  · cases h
  · exact ⟨le_rfl, rfl, rfl⟩
  · cases h
  · obtain ⟨rfl, hall⟩ := hclean
    have hretrans : ∀ u ∈ v :: b, u.isRetrans := fun u hu => (Bool.and_eq_true_iff.1 (hall u hu)).1
    have hfreed : freeSpace (some (v :: b) :: some [] :: ps) (notPolled stack)
        = ⟨fun i => (v :: b).getD i (stack i), 0, (v :: b).length, (v :: b).length, v :: b⟩ := by
      simp [freeSpace, Freed.poll, notPolled]
    rw [hfreed]
    refine ⟨le_rfl, ?_, filter_eq_nil_iff.2 fun u hu => by simp [hretrans u hu]⟩
    calc (range (v :: b).length).countP _
      _ = (v :: b).countP fun u => u.isRetrans && u.ok := countP_range_getD (fun u => u.isRetrans && u.ok) stack (v :: b)
      _ = (v :: b).countP Wc.isRetrans := by rw [countP_eq_length.2 hall, countP_eq_length.2 hretrans]

/-! ## Ordinary polls -/

theorem testWcs_outstandingRetrans (record : Wc → Bool) (wcs : List Wc) (c : SendComm)
    (hclean : ∀ v ∈ wcs.dropWhile (passes record), v.isRetrans = false) (h : (wcs.countP Wc.isRetrans : Int) ≤ c.outstandingRetrans) :
    (testWcs record wcs c).outstandingRetrans = c.outstandingRetrans - wcs.countP Wc.isRetrans := by
  induction wcs generalizing c with
  | nil => simp [testWcs]
  | cons w ws ih =>
    by_cases hpass : passes record w
    · rw [dropWhile_cons_of_pos hpass] at hclean
      by_cases hretrans : w.isRetrans
      · have hsignaled : isUnsignaledWrId w.wrId = false := by
          rw [of_decide_eq_true hretrans]
          decide
        rw [countP_cons_of_pos hretrans] at h ⊢
        rw [testWcs, if_neg (by simp [hsignaled]), if_pos hretrans, if_pos (by omega), ih _ hclean (by simpa using by omega)]
        push_cast
        omega
      · rw [countP_cons_of_neg hretrans] at h ⊢
        have hnext : testWcs record (w :: ws) c = testWcs record ws c := by
          rw [testWcs]
          simp only [passes, hretrans, Bool.false_or, Bool.and_eq_true, Bool.or_eq_true] at hpass
          rcases hpass with ⟨hok, hpass | hpass⟩ <;> simp [hok, hpass, hretrans]
        rw [hnext, ih c hclean h]
    · rw [dropWhile_cons_of_neg hpass] at hclean
      have hnone : (w :: ws).countP Wc.isRetrans = 0 := countP_eq_zero.2 fun v hv => by simp [hclean v hv]
      have hstop : testWcs record (w :: ws) c = c := by
        have hretrans := hclean w (by simp)
        rw [testWcs]
        simp only [passes, hretrans, Bool.false_or, Bool.and_eq_true, Bool.or_eq_true, not_and, not_or] at hpass
        by_cases hok : w.ok
        · simp [hpass hok, hretrans]
        · simp [hok, hretrans]
      rw [hstop, hnone]
      simp

/-! ## Every run -/

theorem World.Accounted.step {w w' : World} {a : Act} (h : w.Accounted) (ha : a.Clean) (hs : w.step a = some w') :
    w'.Accounted := by
  have hcount := h.count
  cases a with
  | timeout nowUs sentUs nic =>
    have hcall := checkTimeout_counts w.comm nowUs nic sentUs
    simp only [World.step, ite_none_right_eq_some, some.injEq] at hs
    obtain ⟨hle, rfl⟩ := hs
    have hright : (checkTimeout w.comm nowUs nic sentUs).freed.Right := by
      rcases hcall.freed with hidle | ⟨hfull, hpolls⟩
      · rw [hidle]
        exact right_notPolled _
      · rw [hpolls]
        exact freeSpace_right _ nic.eight (ha.resolve_left (by simp [hfull]))
    have hnew : (checkTimeout w.comm nowUs nic sentUs).comm.outstandingRetrans
        = ((w.posted ++ (checkTimeout w.comm nowUs nic sentUs).posted).length : Int)
          - (w.polled + (checkTimeout w.comm nowUs nic sentUs).freed.polled.countP Wc.isRetrans : Nat) := by
      rw [hcall.count, hright.settled, hcount, length_append]
      omega
    refine ⟨hnew, ?_, ?_, ?_⟩
    · rw [hnew, length_append]
      omega
    · have := hright.inside
      have := h.inside
      dsimp only
      omega
    · rw [h.kept, hright.kept]
      rfl
  | test record wcs =>
    simp only [World.step, ite_none_right_eq_some, some.injEq] at hs
    obtain ⟨hle, rfl⟩ := hs
    have hnew := testWcs_outstandingRetrans record wcs w.comm ha (by omega)
    exact ⟨by dsimp only; omega, by dsimp only; omega, h.inside, h.kept⟩
  | other comm =>
    simp only [World.step, ite_none_right_eq_some, some.injEq] at hs
    obtain ⟨heq, rfl⟩ := hs
    exact ⟨heq.trans hcount, heq ▸ h.nonneg, h.inside, h.kept⟩

/-- In every run with clean polls the number of outstanding retransmissions is right, and their polls take nothing else. -/
theorem accounted_of_clean {c : SendComm} (hc : c.outstandingRetrans = 0) {w : World}
    (h : Reach World.step (fun _ a => Act.Clean a) (.init c) w) : w.Accounted := by
  refine h.invariant ⟨by simp [World.init, hc], by simp [World.init, hc], rfl, rfl⟩ ?_
  intro w w' a hw ha hs
  exact hw.step ha hs

/-! ### A full queue -/

def retransWc : Wc := ⟨retransWrId, true⟩
def dataWc : Wc := ⟨0, true⟩

/-- A NIC that takes the first post, or gives the completion of a retransmission and then at most one of request 0. -/
def answers (first data : Bool) : Answers where
  first := first
  stack := fun _ => dataWc
  polls := some [retransWc] :: some (if data then [dataWc] else []) :: replicate 6 (some [])
  second := true
  eight := rfl
  fits := by
    intro b hb
    cases data <;> simp_all <;> rcases hb with rfl | rfl | rfl <;> simp

/-- A sender with one packet of 8 bytes that waits for its acknowledgement. -/
def sender : SendComm where
  enabled := true
  retransHdrMr := some 0
  retransHdrPool := fun _ => ⟨0, 0, 0, 0, 0, 0⟩
  buffer := [⟨0, 8, some 4096, fun _ => 0, 0, 0, 0⟩]
  rtoUs := 1
  maxRtoUs := 8
  maxRetry := 7
  retransQPIndex := 0
  qps := [⟨true, 0⟩]
  ndevs := 1
  hasCq := fun _ => true
  outstandingSends := 1
  outstandingRetrans := 0
  maxOutstanding := 128

theorem accounted_sender : ∃ w : World, w.Accounted ∧ w.posted.length = 2 ∧ w.polled = 1 :=
  ⟨_, accounted_of_clean (c := sender) rfl
    (.next (.timeout 5 5 (answers false false)) (.next (.timeout 1 1 (answers true false)) .init (.inl rfl) rfl)
      (.inr ⟨rfl, by decide⟩) rfl), rfl, rfl⟩

/-- The queue gives up the first retransmission and then a data completion, which overwrites it in `wcs`: the count stays,
an entry behind is read, and nobody takes the data completion. -/
theorem fullQueue_unaccounted : ∃ w : World,
    Reach World.step (fun _ _ => True) (.init sender) w ∧ ¬ w.Accounted ∧
      w.comm.outstandingRetrans ≠ w.posted.length - w.polled ∧ w.readOutside = 1 ∧ w.discarded = [dataWc] := by
  refine ⟨_, .next (.timeout 5 5 (answers false true)) (.next (.timeout 1 1 (answers true false)) .init trivial rfl)
    trivial rfl, fun h => ?_, ?_, rfl, rfl⟩
  · exact absurd h.kept (by decide)
  · decide

end FlagCX.Ib.Legacy
