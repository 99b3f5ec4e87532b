import FlagCX.Ib.Uc

/-!
# The IB-UC send communicator: posts and completions

`flagcxIbucIsend`, `flagcxIbucMultiSend` and `flagcxIbucTest` on a send communicator (`ibuc_adaptor.cc`, `ib_common.cc`,
the lanes of `ib_transport.cc`). The event counts of the requests are `SendComm.events`.

* `postChain` : the chain of one lane, with the retries on a full send queue.
* `test`      : the retransmission CQ, the timeout, then the data CQs.

The environment says what every post answers and which completions every poll returns; a completion is named by the
place of its work request in `wire`. `unposted`, `wire`, `dropped` and `chunksOnWire` are read by no function: what
was counted but not posted, posted but not polled, polled but thrown away, and the retransmitted chunks not polled.
-/

namespace FlagCX.Ib
open Function List

/-! ## Lanes -/

/-- The data lanes of a communicator: `qpsPerConn` queue pairs a device, alternating between the devices. -/
structure Lanes where
  ndevs : Nat
  qpsPerConn : Nat
  splitDataOnQps : Bool
  ndevs_pos : 0 < ndevs
  ndevs_le : ndevs ≤ 2
  qpsPerConn_pos : 0 < qpsPerConn

/-- `flagcxIbDataLanePolicy`: round robin, or by an ordering key. -/
inductive LanePolicy where
  | unordered
  | ordered (orderingKey : Nat)
  deriving DecidableEq, Repr

namespace Lanes

variable (lanes : Lanes)

def nqps : Nat := lanes.qpsPerConn * lanes.ndevs

def count : Nat := if lanes.splitDataOnQps then lanes.nqps else lanes.ndevs

def devIndex (lane : Nat) : Dev := ⟨lane % lanes.ndevs, lt_of_lt_of_le (Nat.mod_lt _ lanes.ndevs_pos) lanes.ndevs_le⟩

def devs : List Dev := [0, 1].filter fun d => d.val < lanes.ndevs

/-- `flagcxIbPreviewDataLane` -/
def preview (qpIndex : Nat) (policy : LanePolicy) (stripe : Nat) : Nat :=
  match policy with
  | .ordered key => (key + stripe) % 2 ^ 64 % lanes.nqps
  | .unordered => (qpIndex + stripe) % lanes.nqps

/-- `flagcxIbSelectDataLane` -/
def select (qpIndex : Nat) (policy : LanePolicy) (stripe : Nat) : Nat :=
  match policy with
  | .ordered key => (key + stripe) % 2 ^ 64 % lanes.nqps
  | .unordered => qpIndex % lanes.nqps

/-- `flagcxIbCommitDataLane`: the cursor after a post. -/
def commit (qpIndex : Nat) : LanePolicy → Nat
  | .ordered _ => qpIndex
  | .unordered => (qpIndex % lanes.nqps + 1) % lanes.nqps

/-- The events `flagcxIbucIsend` adds to a request. -/
def previewEvents (qpIndex : Nat) (policy : LanePolicy) : Dev → Nat :=
  laneEvents ((range lanes.count).map fun i => lanes.devIndex (lanes.preview qpIndex policy i))

end Lanes

/-! ## Work request identifiers -/

/-- `FLAGCX_IB_UNSIGNALED_WR_ID_PREFIX` -/
def unsignaledPrefix : Nat := 0xffffffffffffff00

def ackSendWrId : Nat := 0x2000000000000000

def retransWrId : Nat := 0xFFFFFFFE

def unsignaledWrId (reqIndex : Nat) : Nat := unsignaledPrefix ||| reqIndex % 256

def isUnsignaledWrId (wrId : Nat) : Bool := wrId &&& unsignaledPrefix == unsignaledPrefix

/-- `wr_id` of the signaled tail: the requests of the batch, one byte each. -/
def packWrId : Nat → List Nat → Nat
  | _, [] => 0
  | r, q :: qs => q <<< (r * 8) + packWrId (r + 1) qs

/-- The request in byte `j` of a `wr_id`. -/
def sendReqIndex (wrId j : Nat) : Nat := wrId >>> (j * 8) &&& 0xff

/-! ## The communicator -/

/-- What `flagcxIbSendFifo` says of one receive. -/
structure PostedRecv where
  tag : Nat
  size : Nat
  addr : Nat
  rkey : Nat

/-- A record of the FIFO that the peer has written. -/
structure PostedRecord where
  requestSlot : Nat
  generation : Nat
  recvs : List PostedRecv

/-- `flagcxIbRequest` of the sender without its events; `inUse` when its type is `FLAGCX_NET_IB_REQ_SEND`. -/
structure SendRequest where
  inUse : Bool
  result : Result
  nreqs : Nat
  source : Segment

/-- A signaled work request, with the requests its `wr_id` names. -/
structure SignaledWr where
  wrId : Nat
  dev : Dev
  requests : List Nat

structure SendState where
  comm : SendComm
  reqs : Nat → SendRequest
  qpIndex : Nat
  fifo : List PostedRecord
  fifoHead : Nat
  /-- `fifoReqs` of the slot at the head. -/
  fifoReqs : Nat → Option Nat
  outstandingSends : Nat
  lastTimeoutCheckUs : Nat
  unposted : Nat → Dev → Nat
  wire : List SignaledWr
  dropped : List SignaledWr
  chunksOnWire : Nat

/-- A completion on a data CQ: of the signaled work request at a place of `wire`, or of an unsignaled one. -/
inductive Completion where
  | signaled (i : Nat) (failed : Bool)
  | unsignaled (request : Nat) (failed : Bool)
  deriving DecidableEq, Repr

def Completion.failed : Completion → Bool
  | .signaled _ failed => failed
  | .unsignaled _ failed => failed

def Completion.isSignaled : Completion → Bool
  | .signaled .. => true
  | .unsignaled .. => false

namespace SendState

def recordError (s : SendState) (r : Result) : SendState :=
  { s with comm := { s.comm with asyncResult := recordCommError s.comm.asyncResult r } }

def discardOne (s : SendState) (dev : Dev) : Completion → SendState
  | .unsignaled .. => s
  | .signaled i _ =>
    match s.wire[i]? with
    | none => s
    | some wr => if wr.dev = dev then { s with wire := s.wire.eraseIdx i, dropped := wr :: s.dropped } else s

/-- Throw away what a poll of a device's data CQ returned. -/
def discard (s : SendState) (dev : Dev) (cs : List Completion) : SendState := cs.foldl (·.discardOne dev) s

def getRequest (s : SendState) : Option Nat := (range maxRequests).find? fun i => !(s.reqs i).inUse

end SendState

/-! ## Posting -/

/-- The answer of `ibv_post_send` to the chain of a lane. -/
inductive PostSend where
  | success
  | noMemory
  | failed
  deriving DecidableEq, Repr

/-- What the post of one lane meets: the answer to post `k`, and what the polls behind it return. -/
structure LaneEnv where
  post : Nat → PostSend
  polled : Nat → Dev → List Completion

section

variable (lanes : Lanes)

def postChain (env : LaneEnv) : Nat → Nat → SendState → PostSend × SendState
  | 0, k, s => (env.post k, s)
  | retries + 1, k, s =>
    match env.post k with
    | .noMemory => postChain env retries (k + 1) (lanes.devs.foldl (fun s d => s.discard d (env.polled k d)) s)
    | ret => (ret, s)

/-- The posts after the first: one, then at most three more. -/
def maxRetries : Nat := 4

def SendState.posted (s : SendState) (policy : LanePolicy) (requests : List Nat) (dev : Dev) : SendState :=
  { s with
    unposted := dropRequests s.unposted requests dev
    wire := s.wire ++ [⟨packWrId 0 requests, dev, requests⟩]
    qpIndex := lanes.commit s.qpIndex policy }

/-- The loop of `flagcxIbucMultiSend` over the lanes. -/
def postLanes (policy : LanePolicy) (requests : List Nat) (env : Nat → LaneEnv) : Nat → Nat → SendState → Result × SendState
  | 0, _, s => (.success, s)
  | n + 1, i, s =>
    match postChain lanes (env i) maxRetries 0 s with
    | (.success, s) =>
      postLanes policy requests env n (i + 1)
        (s.posted lanes policy requests (lanes.devIndex (lanes.select s.qpIndex policy i)))
    | (_, s) => (.systemError, s)

def SendState.batch (s : SendState) (rec : PostedRecord) (requests : List Nat) : Batch where
  index := s.fifoHead
  seq := s.comm.sendSeq
  remoteRequestSlot := rec.requestSlot
  remoteGeneration := rec.generation
  ackDevIndex := 0
  requests := requests
  segments := requests.map fun q => (s.reqs q).source

/-- `flagcxIbucMultiSend` for the requests in `fifoReqs`; a size from 2^31 on is a negative `int`. -/
def multiSend (s : SendState) (rec : PostedRecord) (policy : LanePolicy) (env : Nat → LaneEnv) (nowUs : Nat) :
    Result × SendState :=
  let requests := (range rec.recvs.length).filterMap s.fifoReqs
  if maxRecvs < rec.recvs.length ∨ requests.any (fun q => decide (2 ^ 31 ≤ (s.reqs q).source.size)) then (.internalError, s)
  else
    let b := s.batch rec requests
    match postLanes lanes policy requests env lanes.count 0
        { s with comm := { s.comm with sendSeq := (s.comm.sendSeq + 1) &&& seqMask } } with
    | (.success, s) =>
      match addBatch s.comm b nowUs with
      | (.success, comm) => (.success, { s with comm := comm, outstandingSends := s.outstandingSends + 1 })
      | (r, comm) => (r, { s with comm := comm })
    | (r, s) => (r, s)

/-- The request `q` of a send of `source` that answers receive `r` of the record. -/
def SendState.addRequest (s : SendState) (rec : PostedRecord) (r q : Nat) (source : Segment) (policy : LanePolicy) :
    SendState :=
  let events := lanes.previewEvents s.qpIndex policy
  { s with
    comm := { s.comm with events := update s.comm.events q events }
    reqs := update s.reqs q ⟨true, .success, rec.recvs.length, source⟩
    fifoReqs := update s.fifoReqs r (some q)
    unposted := update s.unposted q events }

def SendState.missing (s : SendState) (rec : PostedRecord) : Bool :=
  (range rec.recvs.length).any fun r => (s.fifoReqs r).isNone

/-- What `flagcxIbucIsend` meets: the lane policy of the submit context, the posts and the clock. -/
structure IsendEnv where
  policy : LanePolicy
  lane : Nat → LaneEnv
  nowUs : Nat

/-- `flagcxIbucIsend`: its result, the request it returns, and the state. -/
def isend (s : SendState) (tag : Nat) (source : Segment) (env : IsendEnv) : Result × Option Nat × SendState :=
  match s.fifo[s.fifoHead]? with
  | none => (.success, none, s)
  | some rec =>
    match rec.recvs.zipIdx.find? fun p => (s.fifoReqs p.2).isNone && p.1.tag == tag with
    | none => (.success, none, s)
    | some (recv, r) =>
      if recv.addr = 0 ∨ recv.rkey = 0 then (.internalError, none, s)
      else
        match s.getRequest with
        | none => (.internalError, none, s)
        | some q =>
          let s := s.addRequest lanes rec r q (clipSegment source recv.size) env.policy
          if s.missing rec then (.success, some q, s)
          else
            match multiSend lanes s rec env.policy env.lane env.nowUs with
            | (.success, s) => (.success, some q, { s with fifoReqs := fun _ => none, fifoHead := s.fifoHead + 1 })
            | (result, s) => (result, some q, s)

end

/-! ## Data completions -/

/-- `flagcxIbCommonRecordRequestEvent` for a list of requests, up to the first that has no event left. -/
def recordEvents (dev : Dev) (result : Result) : List Nat → SendState → Result × SendState
  | [], s => (.success, s)
  | q :: qs, s =>
    if s.comm.events q dev = 0 then (.internalError, s)
    else recordEvents dev result qs { s with
      comm := { s.comm with events := dropRequests s.comm.events [q] dev }
      reqs := update s.reqs q { s.reqs q with
        result := if (s.reqs q).result = .success then result else (s.reqs q).result } }

/-- `flagcxIbCommonRecordDataCompletion` -/
def recordDataCompletion (s : SendState) (wrId : Nat) (dev : Dev) (result : Result) : Result × SendState :=
  let req := s.reqs (sendReqIndex wrId 0)
  if req.inUse = false then (.internalError, s)
  else if req.nreqs = 0 ∨ maxRecvs < req.nreqs then (.internalError, s)
  else recordEvents dev result ((range req.nreqs).map (sendReqIndex wrId)) s

/-- Go on with the next completion, or return from the call. -/
inductive Polled where
  | next (s : SendState)
  | stop (done : Bool) (result : Result) (s : SendState)

/-- The return code of `flagcxIbucCompleteRetransWindow`. -/
def windowResult (c : SendComm) (failed : Bool) : Result :=
  if c.outstandingRetrans = 0 then .internalError else if failed then .remoteError else .success

/-- The body of the loop of `flagcxIbCommonTestDataQp` over the polled completions, with the branches
`flagcxIbucProcessWc` has for a send communicator. -/
def processWc (s : SendState) (dev : Dev) (wrId : Nat) (failed : Bool) : Polled :=
  if isUnsignaledWrId wrId then
    if failed then
      let q := wrId &&& 0xff
      if (s.reqs q).inUse = false then .stop false .internalError s
      else
        let result := if (s.reqs q).result = .success then .remoteError else (s.reqs q).result
        .stop true .remoteError
          ({ s with reqs := update s.reqs q { s.reqs q with result := result } }.recordError .remoteError)
    else .next s
  else if wrId = ackSendWrId then if failed then .stop false .remoteError (s.recordError .remoteError) else .next s
  else if wrId = retransWrId then
    match windowResult s.comm failed with
    | .success => .next { s with comm := completeRetransWindow s.comm failed }
    | r => .stop false r { s with comm := completeRetransWindow s.comm failed }
  else
    match recordDataCompletion s wrId dev (if failed then .remoteError else .success) with
    | (.success, s) => if failed then .stop true .remoteError (s.recordError .remoteError) else .next s
    | (r, s) => .stop false r s

def processPolled (dev : Dev) : List Completion → SendState → Polled
  | [], s => .next s
  | .unsignaled q failed :: cs, s =>
    match processWc s dev (unsignaledWrId q) failed with
    | .next s => processPolled dev cs s
    | .stop done r s => .stop done r (s.discard dev cs)
  | .signaled i failed :: cs, s =>
    match s.wire[i]? with
    | none => processPolled dev cs s
    | some wr =>
      if wr.dev = dev then
        match processWc { s with wire := s.wire.eraseIdx i } dev wr.wrId failed with
        | .next s => processPolled dev cs s
        | .stop done r s => .stop done r (s.discard dev cs)
      else processPolled dev cs s

def pollDevs (round : Dev → List Completion) : List Dev → SendState → Polled
  | [], s => .next s
  | d :: ds, s =>
    match processPolled d (round d) s with
    | .next s => pollDevs round ds s
    | .stop done r s => .stop done r s

/-! ## The retransmission CQ -/

def ackBufCount : Nat := 64

/-- A completion on a retransmission CQ: of a chunk, of an ACK with its credit and the answer to the post that gives it back,
or another one. -/
inductive RetransWc where
  | window (failed : Bool)
  | ack (creditIndex : Nat) (msg : AckMsg) (nowUs : Nat) (repost : Result)
  | other

def RetransWc.isWindow : RetransWc → Bool
  | .window _ => true
  | _ => false

/-- The body of the loop of `flagcxIbucPollRetransCq`. -/
def processRetransWc (s : SendState) : RetransWc → Result × SendState
  | .window failed =>
    if s.chunksOnWire = 0 then (.success, s)
    else (windowResult s.comm failed,
      { s with comm := completeRetransWindow s.comm failed, chunksOnWire := s.chunksOnWire - 1 })
  | .ack creditIndex msg nowUs repost =>
    if ackBufCount ≤ creditIndex then (.internalError, s.recordError .internalError)
    else (repost, { s with comm := processAck s.comm msg nowUs })
  | .other => (.remoteError, s.recordError .remoteError)

/-- `flagcxIbucPollRetransCq`; an error leaves the rest of the polled completions behind. -/
def pollRetransCq : List RetransWc → SendState → Result × SendState
  | [], s => (.success, s)
  | wc :: wcs, s =>
    match processRetransWc s wc with
    | (.success, s) => pollRetransCq wcs s
    | (r, s) => (r, { s with chunksOnWire := s.chunksOnWire - wcs.countP RetransWc.isWindow })

def pollRetransCqs (polled : Dev → List RetransWc) : List Dev → SendState → Result × SendState
  | [], s => (.success, s)
  | d :: ds, s =>
    match pollRetransCq (polled d) s with
    | (.success, s) => pollRetransCqs polled ds s
    | (r, s) => (r, s)

/-! ## Test -/

/-- What `flagcxIbucTest` meets: the polls of the retransmission CQs, the clock, the answers to the posts of a window,
and the rounds of polls of the data CQs. -/
structure TestEnv where
  retrans : Dev → List RetransWc
  nowUs : Nat
  resendUs : Nat
  post : Nat → Result
  rounds : List (Dev → List Completion)

def checkIntervalUs : Nat := 1000

def preCheckTimeout (s : SendState) (env : TestEnv) : Result × SendState :=
  if checkIntervalUs ≤ (env.nowUs + 2 ^ 64 - s.lastTimeoutCheckUs) % 2 ^ 64 then
    match checkTimeoutFrom s.comm env.resendUs env.post s.comm.buffer.length 0 with
    | (.success, comm, sent) => (.success, { s with
        comm := comm
        chunksOnWire := s.chunksOnWire + sent.length
        lastTimeoutCheckUs := env.nowUs })
    | (r, comm, sent) => (r, { s with comm := comm, chunksOnWire := s.chunksOnWire + sent.length }.recordError r)
  else (.success, s)

structure TestOut where
  done : Bool
  result : Result
  deriving DecidableEq, Repr

/-- `flagcxIbCommonReleaseRequest` -/
def SendState.release (s : SendState) (q : Nat) : SendState :=
  { s with
    reqs := update s.reqs q { s.reqs q with inUse := false }
    outstandingSends := s.outstandingSends - 1 }

section

variable (lanes : Lanes)

def testPreCheck (s : SendState) (q : Nat) (env : TestEnv) : Result × SendState :=
  if (s.reqs q).inUse = false then (.success, s)
  else
    match pollRetransCqs env.retrans lanes.devs s with
    | (.success, s) => preCheckTimeout s env
    | (r, s) => (r, s)

/-- The loop of `flagcxIbCommonTestDataQp`: it ends when the request has no event left or a round returns nothing. -/
def testLoop (q : Nat) : List (Dev → List Completion) → SendState → TestOut × SendState
  | [], s =>
    if s.comm.events q 0 = 0 ∧ s.comm.events q 1 = 0 then (⟨true, (s.reqs q).result⟩, s.release q)
    else (⟨false, .success⟩, s)
  | round :: rounds, s =>
    if s.comm.events q 0 = 0 ∧ s.comm.events q 1 = 0 then (⟨true, (s.reqs q).result⟩, s.release q)
    else if lanes.devs.all fun d => (round d).isEmpty then (⟨false, .success⟩, s)
    else
      match pollDevs round lanes.devs s with
      | .next s => testLoop q rounds s
      | .stop done r s => (⟨done, r⟩, s)

/-- `flagcxIbucTest` on a send request. -/
def test (s : SendState) (q : Nat) (env : TestEnv) : TestOut × SendState :=
  if s.comm.asyncResult ≠ .success ∧ s.comm.asyncResult ≠ .inProgress then (⟨true, s.comm.asyncResult⟩, s)
  else
    match testPreCheck lanes s q env with
    | (.success, s) => testLoop lanes q env.rounds s
    | (r, s) => (⟨false, r⟩, s)

/-! ## Runs -/

/-- What happens next: the peer posts receives, the caller sends or tests. -/
inductive SendAct where
  | posted (rec : PostedRecord)
  | isend (tag : Nat) (source : Segment) (env : IsendEnv)
  | test (q : Nat) (env : TestEnv)

/-- One call; the peer's `flagcxIbucIrecv` posts between one and `FLAGCX_NET_IB_MAX_RECVS` receives. -/
def SendState.step (s : SendState) : SendAct → Option SendState
  | .posted rec =>
    if rec.recvs = [] ∨ maxRecvs < rec.recvs.length then none else some { s with fifo := s.fifo ++ [rec] }
  | .isend tag source env => some (Ib.isend lanes s tag source env).2.2
  | .test q env => some (Ib.test lanes s q env).2

end

def SendState.start (minRtoUs maxRetry : Nat) : SendState where
  comm := (World.start minRtoUs maxRetry).snd
  reqs := fun _ => ⟨false, .success, 0, ⟨0, fun _ => 0⟩⟩
  qpIndex := 0
  fifo := []
  fifoHead := 0
  fifoReqs := fun _ => none
  outstandingSends := 0
  lastTimeoutCheckUs := 0
  unposted := fun _ _ => 0
  wire := []
  dropped := []
  chunksOnWire := 0

end FlagCX.Ib
