import FlagCX.Ib.Retrans
import FlagCX.Lib.Guarded

/-!
# The IB-UC connection: receiver, network and steps

The receiver's half of `ibuc_adaptor.cc` and the steps of a connection. The receiver posts receives and publishes them
in the FIFO; the sender answers FIFO record `i` with its batch `i`, over unreliable queue pairs that raise one
notification a lane, and retransmits over RC.

* `processNotification`, `processRetrans` : the two receive branches of `flagcxIbucProcessWc`.
* `recvPacket`                            : `flagcxIbRetransRecvPacket`, the cumulative receive sequence.
* `World.step`                            : one step of either side.

The network is a list of everything ever posted: a message may be delivered at any time, any number of times or never.
What a request, a FIFO record or the world keeps for the statements only is said at the field.
-/

namespace FlagCX.Ib
open Function

def maxRequests : Nat := 256

/-- `UINT32_MAX` -/
def noSeq : Nat := 2 ^ 32 - 1

/-! ## Receive requests -/

/-- The types of a request of a receive communicator. -/
inductive ReqType where
  | unused
  | recv
  | flush
  deriving DecidableEq, Repr

/-- One `memcpy` of the reassembly. -/
structure Copy where
  index : Nat
  segment : Nat
  offset : Nat
  size : Nat
  payload : Nat → UInt8

/-- `flagcxIbRequest` of the receiver. The fields from `cqes` on are not the code's: the send completions still to come
for the request, its FIFO record, what its buffers held when it was posted, and the copies made for it, newest first. -/
structure Request where
  type : ReqType
  events : Dev → Nat
  dataEvents : Dev → Nat
  retransSeq : Nat
  retransGeneration : Nat
  retransSegmentMask : Nat
  retransSegmentBytes : Nat → Nat
  nreqs : Nat
  data : Nat → Nat → UInt8
  capacities : Nat → Nat
  sizes : Nat → Nat
  cqes : Dev → Nat
  index : Nat
  initial : Nat → Nat → UInt8
  copies : List Copy

/-- The sum of `dataEvents` over the devices. -/
def Request.pendingDataEvents (r : Request) : Nat := r.dataEvents 0 + r.dataEvents 1

/-- `(uint8_t)((1u << nreqs) - 1)` -/
def completeMask (nreqs : Nat) : Nat := (1 <<< nreqs - 1) % 256

/-- The batch of the request is accepted: no data event is pending, or every segment has been reassembled. -/
def Request.complete (r : Request) : Prop := r.pendingDataEvents = 0 ∨ r.retransSegmentMask = completeMask r.nreqs

instance (r : Request) : Decidable r.complete := inferInstanceAs (Decidable (_ ∨ _))

def Request.matchesGeneration (r : Request) (generation : Nat) : Bool :=
  r.type == .recv && r.retransGeneration == generation &&& generationMask

/-- The fields of `flagcxIbRecvComm` and its `flagcxIbRetransState` that the receiver reads. `recvCount` is `recvSeq`
without wrapping. -/
structure RecvComm where
  reqs : Nat → Request
  recvSeq : Nat
  lastAckSeq : Nat
  lastAckSendTimeUs : Nat
  ackInterval : Nat
  asyncResult : Result
  recvCount : Nat

/-- `flagcxIbucGetRequest`: the first unused slot. -/
def getRequest (c : RecvComm) : Option Nat := (List.range maxRequests).find? fun i => (c.reqs i).type == .unused

/-- The generation of a slot when it is posted again: 12 bits, 0 left out. -/
def nextGeneration (g : Nat) : Nat :=
  let g' := (g + 1) &&& generationMask
  if g' = 0 then 1 else g'

/-- `flagcxIbSendFifo`: what the sender reads of a posted receive. -/
structure FifoRecord where
  requestSlot : Nat
  generation : Nat
  sizes : List Nat

def laneEvents (lanes : List Dev) (d : Dev) : Nat := lanes.count d

/-- `flagcxIbucIrecv` on slot `s`, for the buffers (capacity and contents) of FIFO record `fifoTail`. The FIFO write is
signaled when its FIFO slot is the number of the device it goes through. -/
def postRecv (r : Request) (fifoTail : Nat) (buffers : List (Nat × (Nat → UInt8))) (lanes : List Dev) (ctsDev : Dev) :
    Request :=
  let cqes := fun d => if d = ctsDev ∧ fifoTail % maxRequests = ctsDev then 1 else 0
  let data := fun i => (buffers[i]?.map Prod.snd).getD fun _ => 0
  { type := .recv
    events := fun d => laneEvents lanes d + cqes d
    dataEvents := laneEvents lanes
    retransSeq := noSeq
    retransGeneration := nextGeneration r.retransGeneration
    retransSegmentMask := 0
    retransSegmentBytes := fun _ => 0
    nreqs := buffers.length
    data := data
    capacities := fun i => (buffers[i]?.map Prod.fst).getD 0
    sizes := fun _ => 0
    cqes := cqes
    index := fifoTail
    initial := data
    copies := [] }

/-- `flagcxIbucIflush` on an unused slot: one RDMA read for every device of the list. -/
def postFlush (r : Request) (devs : List Dev) : Request :=
  { r with
    type := .flush
    events := laneEvents devs
    dataEvents := fun _ => 0
    retransSeq := noSeq
    nreqs := 0
    cqes := laneEvents devs }

/-! ## The cumulative receive sequence -/

/-- What the environment answers while a completion is processed: the clock, the post of an ACK, and the post that gives
the receive credit back. -/
structure Env where
  nowUs : Nat
  ackPost : Result
  creditPost : Result

/-- The receive sequence after a packet: it moves when the packet is the next one. -/
def RecvComm.nextRecvSeq (c : RecvComm) (seq : Nat) : Nat :=
  if seq = c.recvSeq then (c.recvSeq + 1) &&& seqMask else c.recvSeq

/-- `*should_ack` of `flagcxIbRetransRecvPacket`. -/
def RecvComm.shouldAck (c : RecvComm) (seq nowUs : Nat) : Bool :=
  let interval := if 0 < c.ackInterval then c.ackInterval else 1
  let delta := (c.nextRecvSeq seq + 2 ^ 32 - c.lastAckSeq) % 2 ^ 32 &&& seqMask
  seq != c.recvSeq || decide (interval ≤ delta) ||
    decide (1000 ≤ (nowUs + 2 ^ 64 - c.lastAckSendTimeUs) % 2 ^ 64) || c.nextRecvSeq seq == 1

def RecvComm.sackBitmap (c : RecvComm) (seq : Nat) : Nat :=
  let gap := (seq + 2 ^ 32 - c.recvSeq) % 2 ^ 32 &&& seqMask
  if seq ≠ c.recvSeq ∧ seqLess seq c.recvSeq = false ∧ 0 < gap ∧ gap < 64 then 1 <<< (gap - 1) else 0

/-- `flagcxIbRetransRecvPacket`: the new state and, if one is due, the ACK. -/
def recvPacket (c : RecvComm) (seq nowUs : Nat) : RecvComm × Option AckMsg :=
  let recvCount := if seq = c.recvSeq then c.recvCount + 1 else c.recvCount
  if c.shouldAck seq nowUs then
    ({ c with
        recvSeq := c.nextRecvSeq seq
        recvCount := recvCount
        lastAckSeq := c.nextRecvSeq seq
        lastAckSendTimeUs := nowUs },
      some {
        ackSeq := (c.nextRecvSeq seq + 2 ^ 32 - 1) % 2 ^ 32 &&& seqMask
        timestampUs := nowUs
        sackBitmap := c.sackBitmap seq
        sackBitmapCount := if c.sackBitmap seq = 0 then 0 else 1
        count := recvCount })
  else ({ c with recvSeq := c.nextRecvSeq seq, recvCount := recvCount }, none)

/-- `flagcxIbucAckSequence`; `flagcxIbucSendAckRc` turns a full send queue into an error. -/
def ackSequence (c : RecvComm) (seq : Nat) (env : Env) : Result × RecvComm × List AckMsg :=
  match recvPacket c seq env.nowUs with
  | (c', none) => (.success, c', [])
  | (c', some ack) =>
    match env.ackPost with
    | .success => (.success, c', [ack])
    | .inProgress => (.systemError, c', [])
    | r => (r, c', [])

def RecvComm.setReq (c : RecvComm) (s : Nat) (r : Request) : RecvComm := { c with reqs := update c.reqs s r }

@[simp] theorem RecvComm.setReq_self (c : RecvComm) (s : Nat) (r : Request) : (c.setReq s r).reqs s = r := update_self ..

/-- Return an error after `flagcxIbCommonRecordCommError`. -/
def RecvComm.fail (c : RecvComm) (r : Result) : Result × RecvComm × List AckMsg :=
  (r, { c with asyncResult := recordCommError c.asyncResult r }, [])

/-! ## Receive completions -/

/-- A notification of a batch, as the receive completion on device `dev` reports it. -/
structure Notification where
  immData : Nat
  dev : Dev
  index : Nat

def Request.countsNotification (r : Request) (recvSeq seq generation : Nat) (dev : Dev) : Prop :=
  r.matchesGeneration generation = true ∧ seqLess seq recvSeq = false ∧
    ¬ (r.retransSeq = seq ∧ r.retransSegmentMask = completeMask r.nreqs) ∧ 0 < r.events dev

/-- One data event of the device is used up. -/
def Request.countDown (r : Request) (seq : Nat) (dev : Dev) : Request :=
  { r with
    retransSeq := seq
    dataEvents := update r.dataEvents dev (r.dataEvents dev - 1)
    events := update r.events dev (r.events dev - 1) }

/-- The UC branch of `flagcxIbucProcessWc`. -/
def processNotification (c : RecvComm) (m : Notification) (env : Env) : Result × RecvComm × List AckMsg :=
  match decodeImmData m.immData with
  | (seq, requestSlot, generation) =>
    let target := c.reqs requestSlot
    if env.creditPost ≠ .success then (env.creditPost, c, [])
    else if target.matchesGeneration generation = false ∨ seqLess seq c.recvSeq = true then ackSequence c seq env
    else if target.retransSeq = seq ∧ target.retransSegmentMask = completeMask target.nreqs then ackSequence c seq env
    else if target.events m.dev = 0 then c.fail .internalError
    else
      let c := c.setReq requestSlot { target with retransSeq := seq }
      -- the ACK of the last notification goes out before the device's own count is looked at
      match if target.pendingDataEvents = 1 then ackSequence c seq env else (.success, c, []) with
      | (.success, c, acks) =>
        if target.dataEvents m.dev = 0 then
          (.internalError, { c with asyncResult := recordCommError c.asyncResult .internalError }, acks)
        else (.success, c.setReq requestSlot (target.countDown seq m.dev), acks)
      | (r, c, acks) => (r, c, acks)

/-- The fields the receiver decodes from a chunk's header. -/
structure ChunkFields where
  requestSlot : Nat
  segment : Nat
  nreqs : Nat
  generation : Nat
  chunkOffset : Nat
  totalSize : Nat
  deriving DecidableEq

def RetransHdr.fields (hdr : RetransHdr) : ChunkFields where
  requestSlot := hdr.immData &&& 0xFF
  segment := hdr.immData >>> 8 &&& 0xFF
  nreqs := hdr.immData >>> 16 &&& 0xFF
  generation := hdr.remoteAddr &&& generationMask
  chunkOffset := hdr.remoteAddr >>> 16 % 2 ^ 32
  totalSize := hdr.rkey

/-- The header check of the retransmission branch. -/
def Chunk.malformed (m : Chunk) : Prop :=
  m.hdr.magic ≠ retransMagic ∨ m.hdr.fields.nreqs = 0 ∨ maxRecvs < m.hdr.fields.nreqs ∨
    m.hdr.fields.nreqs ≤ m.hdr.fields.segment ∨ maxChunkSize < m.hdr.size ∨
    m.hdr.fields.totalSize < m.hdr.fields.chunkOffset ∨
    m.hdr.fields.totalSize - m.hdr.fields.chunkOffset < m.hdr.size ∨ m.byteLen ≠ retransHdrSize + m.hdr.size

instance (m : Chunk) : Decidable m.malformed := inferInstanceAs (Decidable (_ ∨ _))

/-- `currentRequest` of the retransmission branch. -/
def Request.current (r : Request) (m : Chunk) : Bool :=
  r.matchesGeneration m.hdr.fields.generation && r.nreqs == m.hdr.fields.nreqs &&
    (r.retransSeq == noSeq || r.retransSeq == m.hdr.seq)

def copyBytes (dst : Nat → UInt8) (offset size : Nat) (payload : Nat → UInt8) : Nat → UInt8 := fun i =>
  if offset ≤ i ∧ i < offset + size then payload (i - offset) else dst i

def Request.copyChunk (r : Request) (m : Chunk) : Request :=
  let f := m.hdr.fields
  let bytes := r.retransSegmentBytes f.segment + m.hdr.size
  { r with
    data := update r.data f.segment (copyBytes (r.data f.segment) f.chunkOffset m.hdr.size m.payload)
    retransSeq := m.hdr.seq
    retransSegmentBytes := update r.retransSegmentBytes f.segment bytes
    sizes := if bytes = f.totalSize then update r.sizes f.segment f.totalSize else r.sizes
    retransSegmentMask :=
      if bytes = f.totalSize then r.retransSegmentMask ||| 1 <<< f.segment else r.retransSegmentMask
    copies := ⟨m.index, f.segment, f.chunkOffset, m.hdr.size, m.payload⟩ :: r.copies }

def Request.takeChunk (r : Request) (m : Chunk) : Except Result Request :=
  let f := m.hdr.fields
  if r.capacities f.segment < f.totalSize then .error .remoteError
  else if r.retransSegmentBytes f.segment < f.chunkOffset then .error .remoteError
  else if f.chunkOffset = r.retransSegmentBytes f.segment ∧ r.retransSegmentMask &&& 1 <<< f.segment = 0 then
    .ok (r.copyChunk m)
  else .ok r

/-- RC retransmission replaces the data notifications still missing. -/
def Request.dropDataEvents (r : Request) : Except Result Request :=
  if r.events 0 < r.dataEvents 0 ∨ r.events 1 < r.dataEvents 1 then .error .internalError
  else .ok { r with events := fun d => r.events d - r.dataEvents d, dataEvents := fun _ => 0 }

/-- The retransmission branch of `flagcxIbucProcessWc`. -/
def processRetrans (c : RecvComm) (m : Chunk) (env : Env) : Result × RecvComm × List AckMsg :=
  let f := m.hdr.fields
  let target := c.reqs f.requestSlot
  if m.malformed then c.fail .remoteError
  else if target.current m = false then
    if env.creditPost ≠ .success then (env.creditPost, c, []) else ackSequence c m.hdr.seq env
  else
    match target.takeChunk m with
    | .error r => c.fail r
    | .ok target' =>
      let c := c.setReq f.requestSlot target'
      if env.creditPost ≠ .success then (env.creditPost, c, [])
      else if target'.retransSegmentMask ≠ completeMask f.nreqs then (.success, c, [])
      else
        match ackSequence c m.hdr.seq env with
        | (.success, c, acks) =>
          match target'.dropDataEvents with
          | .error r => (r, { c with asyncResult := recordCommError c.asyncResult r }, acks)
          | .ok target'' => (.success, c.setReq f.requestSlot target'', acks)
        | (r, c, acks) => (r, c, acks)

/-! ## The connection -/

/-- Both sides and the network, which holds everything ever published, posted or sent; `accepted` are the batches the receiver
has accepted. -/
structure World where
  snd : SendComm
  rcv : RecvComm
  fifo : List FifoRecord
  batches : List Batch
  notes : List Notification
  chunks : List Chunk
  acks : List AckMsg
  accepted : List Nat

def Request.fresh : Request :=
  ⟨.unused, fun _ => 0, fun _ => 0, 0, 0, 0, fun _ => 0, 0, fun _ _ => 0, fun _ => 0, fun _ => 0, fun _ => 0, 0,
    fun _ _ => 0, []⟩

/-- `flagcxIbRetransInit` on both sides of a new connection; the receiver acknowledges every packet. -/
def World.start (minRtoUs maxRetry : Nat) : World where
  snd := ⟨0, 0, [], minRtoUs, 0, 0, minRtoUs, minRtoUs * 64, maxRetry, 0, [], 0, fun _ _ => 0, .success⟩
  rcv := ⟨fun _ => .fresh, 0, 0, 0, 1, .success, 0⟩
  fifo := []
  batches := []
  notes := []
  chunks := []
  acks := []
  accepted := []

/-- What happens next. -/
inductive Act where
  /-- `flagcxIbucIrecv` with buffers, data lanes and the device of the FIFO write. -/
  | irecv (buffers : List (Nat × (Nat → UInt8))) (lanes : List Dev) (ctsDev : Dev)
  /-- `flagcxIbucIflush` -/
  | iflush (devs : List Dev)
  /-- `flagcxIbucMultiSend` once every receive of the next FIFO record has its send. -/
  | send (sources : List Segment) (requests : List Nat) (lanes : List Dev) (nowUs : Nat)
  /-- A notification, a chunk or an ACK arrives. -/
  | notify (i : Nat) (env : Env)
  | chunk (i : Nat) (env : Env)
  | ack (i : Nat) (nowUs : Nat)
  /-- `flagcxIbRetransCheckTimeout` -/
  | timeout (nowUs : Nat) (post : Nat → Result)
  /-- A completion of a retransmitted chunk. -/
  | windowCqe (failed : Bool)
  /-- A send completion of a receive request. -/
  | sendCqe (s : Nat) (dev : Dev)
  /-- `flagcxIbucTest` finds a request done and releases it. -/
  | test (s : Nat)

/-- `flagcxIbucIsend` clips a message to the posted size and stores it in an `int`. -/
def clipSegment (s : Segment) (capacity : Nat) : Segment := { s with size := min s.size capacity % 2 ^ 32 }

def makeBatch (c : SendComm) (index : Nat) (rec : FifoRecord) (sources : List Segment) (requests : List Nat) : Batch where
  index := index
  seq := c.sendSeq
  remoteRequestSlot := rec.requestSlot
  remoteGeneration := rec.generation
  ackDevIndex := 0
  requests := requests
  segments := List.zipWith clipSegment sources rec.sizes

/-- The receiver has processed a completion for slot `s`. -/
def World.afterReceive (w : World) (s : Nat) (out : Result × RecvComm × List AckMsg) : World :=
  let r := out.2.1.reqs s
  { w with
    rcv := out.2.1
    acks := w.acks ++ out.2.2
    accepted := if r.type = .recv ∧ r.complete then r.index :: w.accepted else w.accepted }

namespace World

def stepIrecv (w : World) (buffers : List (Nat × (Nat → UInt8))) (lanes : List Dev) (ctsDev : Dev) : Option World :=
  if buffers = [] ∨ maxRecvs < buffers.length ∨ lanes = [] then none
  else
    match getRequest w.rcv with
    | none => none
    | some s =>
      let r := postRecv (w.rcv.reqs s) w.fifo.length buffers lanes ctsDev
      some { w with
        rcv := w.rcv.setReq s r
        fifo := w.fifo ++ [⟨s, r.retransGeneration, buffers.map Prod.fst⟩] }

def stepIflush (w : World) (devs : List Dev) : Option World :=
  match getRequest w.rcv with
  | none => none
  | some s => some { w with rcv := w.rcv.setReq s (postFlush (w.rcv.reqs s) devs) }

/-- The UC work requests of the lanes are posted, then the batch is tracked. An entry holds its requests, so the request
pool keeps the ring from filling up, and a full ring is not a step. -/
def stepSend (w : World) (sources : List Segment) (requests : List Nat) (lanes : List Dev) (nowUs : Nat) : Option World :=
  match w.fifo[w.batches.length]? with
  | none => none
  | some rec =>
    if sources.length ≠ rec.sizes.length ∨ requests.length ≠ rec.sizes.length then none
    else
      let b := makeBatch w.snd w.batches.length rec sources requests
      if b.segments.any (fun s => decide (2 ^ 31 ≤ s.size)) then none
      else
        match addBatch { w.snd with sendSeq := (w.snd.sendSeq + 1) &&& seqMask } b nowUs with
        | (.success, snd) => some { w with
            snd := snd
            batches := w.batches ++ [b]
            notes := w.notes ++ lanes.map fun d =>
              ⟨encodeImmData b.seq b.remoteRequestSlot b.remoteGeneration, d, b.index⟩ }
        | _ => none

def stepNotify (w : World) (i : Nat) (env : Env) : Option World :=
  if w.rcv.asyncResult ≠ .success then none
  else
    match w.notes[i]? with
    | none => none
    | some m => some (w.afterReceive (decodeImmData m.immData).2.1 (processNotification w.rcv m env))

def stepChunk (w : World) (i : Nat) (env : Env) : Option World :=
  if w.rcv.asyncResult ≠ .success then none
  else
    match w.chunks[i]? with
    | none => none
    | some m => some (w.afterReceive m.hdr.fields.requestSlot (processRetrans w.rcv m env))

def stepAck (w : World) (i : Nat) (nowUs : Nat) : Option World :=
  if w.snd.asyncResult ≠ .success then none
  else
    match w.acks[i]? with
    | none => none
    | some ack => some { w with snd := processAck w.snd ack nowUs }

def stepTimeout (w : World) (nowUs : Nat) (post : Nat → Result) : Option World :=
  if w.snd.asyncResult ≠ .success then none
  else
    match checkTimeout w.snd nowUs post with
    | (snd, sent) => some { w with snd := snd, chunks := w.chunks ++ sent }

def stepWindowCqe (w : World) (failed : Bool) : Option World :=
  if w.snd.asyncResult ≠ .success then none else some { w with snd := completeRetransWindow w.snd failed }

/-- `flagcxIbCommonRecordDataCompletion` for the signaled FIFO write of a receive or the read of a flush. -/
def stepSendCqe (w : World) (s : Nat) (dev : Dev) : Option World :=
  let r := w.rcv.reqs s
  if w.rcv.asyncResult ≠ .success ∨ r.type = .unused ∨ r.cqes dev = 0 ∨ r.events dev = 0 then none
  else some { w with rcv := w.rcv.setReq s { r with
    events := update r.events dev (r.events dev - 1)
    cqes := update r.cqes dev (r.cqes dev - 1) } }

def stepTest (w : World) (s : Nat) : Option World :=
  let r := w.rcv.reqs s
  if w.rcv.asyncResult ≠ .success ∨ r.type = .unused ∨ r.events 0 ≠ 0 ∨ r.events 1 ≠ 0 then none
  else some { w with rcv := w.rcv.setReq s { r with type := .unused } }

/-- One step of the connection; `none` when the call fails without an effect or nothing is there to do. -/
def step (w : World) : Act → Option World
  | .irecv buffers lanes ctsDev => w.stepIrecv buffers lanes ctsDev
  | .iflush devs => w.stepIflush devs
  | .send sources requests lanes nowUs => w.stepSend sources requests lanes nowUs
  | .notify i env => w.stepNotify i env
  | .chunk i env => w.stepChunk i env
  | .ack i nowUs => w.stepAck i nowUs
  | .timeout nowUs post => w.stepTimeout nowUs post
  | .windowCqe failed => w.stepWindowCqe failed
  | .sendCqe s dev => w.stepSendCqe s dev
  | .test s => w.stepTest s

end World

end FlagCX.Ib
