import FlagCX.Result
import FlagCX.Lib.Words

/-!
# The sender's half of the IB-UC retransmission

`ib_retrans.cc`, `ib_retrans.h` and the sender's part of `ibuc_adaptor.cc`, with `USE_IBUC` on: retransmission is always
enabled and goes over the RC queue pair. A batch is tracked from `addBatch` on until `processAck` frees its entry.

* `resendViaSend`  : one retransmission window, at most 16 chunks from the entry's cursor on.
* `checkTimeout`   : continues a window or restarts a batch whose timer ran out.
* `processAck`     : frees the tracked entries a cumulative ACK covers.

The ring buffer of entries is a list, oldest first: an entry is valid exactly while it is in the ring. `Batch.index`,
`Chunk.index` and `AckMsg.count` are read by no function: they name, without wrapping, the batch a message is about.
-/

namespace FlagCX.Ib
open Function

/-- `FLAGCX_IB_MAX_DEVS_PER_NIC` devices. -/
abbrev Dev := Fin 2

scoped instance neZeroDevs : NeZero 2 := ⟨two_ne_zero⟩

/-- `FLAGCX_IB_RETRANS_SEQ_MASK` -/
def seqMask : Nat := 0xFFF

def generationMask : Nat := 0xFFF

/-- `FLAGCX_IB_RETRANS_MAX_INFLIGHT` -/
def maxInflight : Nat := 2048

/-- `FLAGCX_NET_IB_MAX_RECVS` -/
def maxRecvs : Nat := 8

def retransRecvDepth : Nat := 16

/-- `FLAGCX_IB_RETRANS_MAX_CHUNK_SIZE` -/
def maxChunkSize : Nat := 8 * 1024 * 1024

def retransMagic : Nat := 0xDEADBEEF

/-! ## Sequence numbers -/

/-- `flagcxIbSeqLess` on unsigned 32-bit values. -/
def seqLess (a b : Nat) : Bool :=
  let diff := (a + 2 ^ 32 - b) % 2 ^ 32 &&& seqMask
  diff != 0 && decide (seqMask >>> 1 < diff)

def seqLeq (a b : Nat) : Bool := a == b || seqLess a b

/-! ## The packets -/

/-- `flagcxIbRetransHdr` without its padding. -/
structure RetransHdr where
  magic : Nat
  seq : Nat
  size : Nat
  rkey : Nat
  remoteAddr : Nat
  immData : Nat
  deriving DecidableEq, Repr

/-- `sizeof(struct flagcxIbRetransHdr)` -/
def retransHdrSize : Nat := 32

/-- A retransmitted chunk as the receiver gets it: the header, `wc->byte_len` and the payload bytes. -/
structure Chunk where
  hdr : RetransHdr
  byteLen : Nat
  payload : Nat → UInt8
  index : Nat

/-- `flagcxIbAckMsg`; `peerId`, `flowId` and `path` are always 0. -/
structure AckMsg where
  ackSeq : Nat
  timestampUs : Nat
  sackBitmap : Nat
  sackBitmapCount : Nat
  count : Nat
  deriving DecidableEq, Repr

def encodeImmData (seq requestSlot generation : Nat) : Nat :=
  (seq &&& seqMask) <<< 20 ||| (generation &&& generationMask) <<< 8 ||| requestSlot

/-- `flagcxIbucDecodeImmData`: sequence number, request slot and generation. -/
def decodeImmData (immData : Nat) : Nat × Nat × Nat :=
  (immData >>> 20 &&& seqMask, immData &&& 0xFF, immData >>> 8 &&& generationMask)

/-! ## Tracked batches -/

/-- One source buffer of a batch. -/
structure Segment where
  size : Nat
  data : Nat → UInt8

/-- What an entry of the ring says about its batch. -/
structure Batch where
  index : Nat
  seq : Nat
  remoteRequestSlot : Nat
  remoteGeneration : Nat
  ackDevIndex : Dev
  requests : List Nat
  segments : List Segment

def Batch.nreqs (b : Batch) : Nat := b.segments.length

structure RetransEntry where
  batch : Batch
  sendTimeUs : Nat
  retryCount : Nat
  retransSegment : Nat
  retransOffset : Nat
  retransAllPosted : Bool

/-- The fields of `flagcxIbSendComm` and its `flagcxIbRetransState` that retransmission reads; `events` are the event
counts of the send requests. -/
structure SendComm where
  sendSeq : Nat
  sendUna : Nat
  buffer : List RetransEntry
  rtoUs : Nat
  srttUs : Nat
  rttvarUs : Nat
  minRtoUs : Nat
  maxRtoUs : Nat
  maxRetry : Nat
  outstandingRetrans : Nat
  retransWindowRequests : List Nat
  retransWindowDevIndex : Dev
  events : Nat → Dev → Nat
  asyncResult : Result

/-- `req->events[devIndex]++` for every request of a list. -/
def holdRequests (events : Nat → Dev → Nat) (requests : List Nat) (dev : Dev) : Nat → Dev → Nat :=
  requests.foldl (fun ev r => update ev r (update (ev r) dev (ev r dev + 1))) events

/-- `req->events[devIndex]--` for every request of a list that has an event left there. -/
def dropRequests (events : Nat → Dev → Nat) (requests : List Nat) (dev : Dev) : Nat → Dev → Nat :=
  requests.foldl (fun ev r => update ev r (update (ev r) dev (ev r dev - 1))) events

/-- `flagcxIbCommonRecordCommError`: the first error stays. -/
def recordCommError (asyncResult result : Result) : Result :=
  if asyncResult = .success then result else asyncResult

/-- `flagcxIbRetransAddBatch` -/
def addBatch (c : SendComm) (b : Batch) (nowUs : Nat) : Result × SendComm :=
  if b.nreqs = 0 ∨ maxRecvs < b.nreqs then (.invalidArgument, c)
  else if maxInflight ≤ c.buffer.length then (.internalError, c)
  else (.success, { c with
    buffer := c.buffer ++ [⟨b, nowUs, 0, 0, 0, true⟩]
    events := holdRequests c.events b.requests b.ackDevIndex })

/-! ## Acknowledgements -/

def updateRTO (c : SendComm) (rttUs : Nat) : SendComm :=
  let srttUs := if c.srttUs = 0 then rttUs else (7 * c.srttUs + rttUs) / 8
  let delta := if c.srttUs < rttUs then rttUs - c.srttUs else c.srttUs - rttUs
  let rttvarUs := if c.srttUs = 0 then rttUs / 2 else (3 * c.rttvarUs + delta) / 4
  let rtoUs := srttUs + 4 * rttvarUs
  let rtoUs := if rtoUs < c.minRtoUs then c.minRtoUs else rtoUs
  { c with srttUs, rttvarUs, rtoUs := if c.maxRtoUs < rtoUs then c.maxRtoUs else rtoUs }

/-- The loop of `flagcxIbRetransProcessAck` over the entries from the head on. -/
def freeAcked (ackSeq : Nat) (c : SendComm) : List RetransEntry → SendComm
  | [] => { c with buffer := [] }
  | e :: es =>
    if seqLeq e.batch.seq ackSeq then
      freeAcked ackSeq { c with
        events := dropRequests c.events e.batch.requests e.batch.ackDevIndex
        sendUna := (e.batch.seq + 1) &&& seqMask } es
    else { c with buffer := e :: es }

/-- `flagcxIbRetransProcessAck`; a SACK retires nothing. -/
def processAck (c : SendComm) (ack : AckMsg) (nowUs : Nat) : SendComm :=
  let rttUs := (nowUs + 2 ^ 64 - ack.timestampUs) % 2 ^ 64
  let c := if 0 < ack.timestampUs ∧ rttUs < 10000000 then updateRTO c rttUs else c
  freeAcked ack.ackSeq c c.buffer

/-! ## Retransmission windows -/

/-- The work request for the chunk of a segment at `offset`. -/
def chunkAt (b : Batch) (segment offset : Nat) (s : Segment) : Chunk :=
  let chunkSize := if s.size = 0 then 0 else min maxChunkSize (s.size - offset)
  { hdr := {
      magic := retransMagic
      seq := b.seq
      size := chunkSize
      rkey := s.size
      remoteAddr := offset <<< 16 ||| b.remoteGeneration
      immData := b.remoteRequestSlot ||| segment <<< 8 ||| b.nreqs <<< 16 }
    byteLen := retransHdrSize + chunkSize
    payload := fun i => s.data (offset + i)
    index := b.index }

/-- A work request with the cursor after it (`nextSegments`, `nextOffsets`). -/
structure WindowWr where
  chunk : Chunk
  nextSegment : Nat
  nextOffset : Nat

/-- The loop of `flagcxIbRetransResendViaSend` that builds the work requests of a window. -/
def buildWindow (b : Batch) : Nat → Nat → Nat → Except Result (List WindowWr)
  | 0, _, _ => .ok []
  | depth + 1, segment, offset =>
    match b.segments[segment]? with
    | none => .ok []
    | some s =>
      if s.size < offset then .error .internalError
      else
        let chunk := chunkAt b segment offset s
        let next := offset + chunk.hdr.size
        if s.size = 0 ∨ next = s.size then
          (buildWindow b depth (segment + 1) 0).map (⟨chunk, segment + 1, 0⟩ :: ·)
        else (buildWindow b depth segment next).map (⟨chunk, segment, next⟩ :: ·)

def acceptChunk (c : SendComm) (b : Batch) : SendComm :=
  if c.retransWindowRequests = [] then
    { c with
      retransWindowRequests := b.requests
      retransWindowDevIndex := b.ackDevIndex
      events := holdRequests c.events b.requests b.ackDevIndex
      outstandingRetrans := c.outstandingRetrans + 1 }
  else { c with outstandingRetrans := c.outstandingRetrans + 1 }

/-- The cursor of an entry after an accepted work request. -/
def RetransEntry.advance (e : RetransEntry) (wr : WindowWr) : RetransEntry :=
  { e with
    retransSegment := wr.nextSegment
    retransOffset := wr.nextOffset
    retransAllPosted := decide (wr.nextSegment = e.batch.nreqs) }

/-- The posting loop: `post i` is what the provider answers to work request `i`, and `inProgress` ends the loop. -/
def postWindow (post : Nat → Result) :
    List WindowWr → Nat → SendComm → RetransEntry → List Chunk → Result × SendComm × RetransEntry × List Chunk
  | [], _, c, e, sent => (.success, c, e, sent)
  | wr :: wrs, i, c, e, sent =>
    match post i with
    | .success => postWindow post wrs (i + 1) (acceptChunk c e.batch) (e.advance wr) (sent ++ [wr.chunk])
    | .inProgress => (.success, c, e, sent)
    | r => (r, c, e, sent)

/-- The RC branch of `flagcxIbRetransResendViaSend` for the entry it found. -/
def resendEntry (c : SendComm) (e : RetransEntry) (nowUs : Nat) (post : Nat → Result) :
    Result × SendComm × RetransEntry × List Chunk :=
  if 0 < c.outstandingRetrans then (.inProgress, c, e, [])
  else
    match buildWindow e.batch retransRecvDepth e.retransSegment e.retransOffset with
    | .error r => (r, c, e, [])
    | .ok [] => (.internalError, c, e, [])
    | .ok wrs =>
      match postWindow post wrs 0 c e [] with
      | (.success, c', e', []) => (.inProgress, c', e', [])
      | (.success, c', e', sent) =>
        let firstAttempt := e.retransSegment = 0 ∧ e.retransOffset = 0
        (.success, c', { e' with
          retryCount := if firstAttempt then e'.retryCount + 1 else e'.retryCount
          sendTimeUs := nowUs }, sent)
      | (r, c', e', sent) => (r, c', e', sent)

/-- `flagcxIbRetransResendViaSend`: the first entry with this sequence number; the chunks posted come last. -/
def resendViaSend (c : SendComm) (seq nowUs : Nat) (post : Nat → Result) : Result × SendComm × List Chunk :=
  match c.buffer.findIdx? (·.batch.seq == seq) with
  | none => (.success, c, [])
  | some idx =>
    match c.buffer[idx]? with
    | none => (.success, c, [])
    | some e =>
      match resendEntry c e nowUs post with
      | (r, c', e', sent) => (r, { c' with buffer := c.buffer.set idx e' }, sent)

def RetransEntry.restart (e : RetransEntry) : RetransEntry :=
  { e with retransSegment := 0, retransOffset := 0, retransAllPosted := false }

/-- The loop of `flagcxIbRetransCheckTimeout` from entry `idx` on; a window posted, or one that cannot be posted yet,
ends it (`MAX_RETRANS_PER_CALL` = 1). -/
def checkTimeoutFrom (c : SendComm) (nowUs : Nat) (post : Nat → Result) : Nat → Nat → Result × SendComm × List Chunk
  | 0, _ => (.success, c, [])
  | n + 1, idx =>
    match c.buffer[idx]? with
    | none => (.success, c, [])
    | some e =>
      if e.retransAllPosted = false then
        match resendViaSend c e.batch.seq nowUs post with
        | (.inProgress, c', sent) => (.success, c', sent)
        | out => out
      else if c.rtoUs ≤ (nowUs + 2 ^ 64 - e.sendTimeUs) % 2 ^ 64 then
        if c.maxRetry ≤ e.retryCount then (.remoteError, c, [])
        else if 0 < c.outstandingRetrans then (.success, c, [])
        else
          match resendViaSend { c with buffer := c.buffer.set idx e.restart } e.batch.seq nowUs post with
          | (.success, c', sent) => (.success, { c' with
              rtoUs := if c'.maxRtoUs < c'.rtoUs * 2 then c'.maxRtoUs else c'.rtoUs * 2 }, sent)
          | (.inProgress, c', sent) => (.success, c', sent)
          | out => out
      else checkTimeoutFrom c nowUs post n (idx + 1)

/-- `flagcxIbRetransCheckTimeout`; an error it returns is recorded by `flagcxIbucTestPreCheck`. -/
def checkTimeout (c : SendComm) (nowUs : Nat) (post : Nat → Result) : SendComm × List Chunk :=
  match checkTimeoutFrom c nowUs post c.buffer.length 0 with
  | (.success, c', sent) => (c', sent)
  | (r, c', sent) => ({ c' with asyncResult := recordCommError c'.asyncResult r }, sent)

def completeRetransWindow (c : SendComm) (failed : Bool) : SendComm :=
  if c.outstandingRetrans = 0 then { c with asyncResult := recordCommError c.asyncResult .internalError }
  else
    let outstanding := if failed then 0 else c.outstandingRetrans - 1
    if 0 < outstanding then { c with outstandingRetrans := outstanding }
    else { c with
      outstandingRetrans := outstanding
      events := dropRequests c.events c.retransWindowRequests c.retransWindowDevIndex
      retransWindowRequests := []
      asyncResult := if failed then recordCommError c.asyncResult .remoteError else c.asyncResult }

end FlagCX.Ib
