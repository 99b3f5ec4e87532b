import FlagCX.Ib.Retrans
import FlagCX.Lib.Guarded

/-!
# The retransmission ring (`ib_retrans.cc`)

The ring buffer of `flagcxIbRetransState` as the code keeps it: an array of `FLAGCX_IB_RETRANS_MAX_INFLIGHT` slots with
`bufferHead`, `bufferTail` and `bufferCount`. Both builds are covered: with `USE_IBUC` a sequence number has 12 bits and a
whole batch is tracked, without it 16 bits and one packet.

* `RingComm.comm` holds the other fields of the send communicator; its list `buffer` is not used, the entries are here.
* A batch that was released, and a packet, has `nreqs = 0`: no segment.
* `RingComm.step` is one call, with the sequence number as the adaptors hand it out (`sendSeq`, advanced by one).
* The statistics counters and `lastAckTimeUs` are left out: no function reads them.
-/

namespace FlagCX.Ib

/-- The adaptor the library is built with. -/
inductive Build where
  | ibrc
  | ibuc
  deriving DecidableEq, Repr

def Build.seqMask : Build → Nat
  | .ibrc => 0xFFFF
  | .ibuc => 0xFFF

/-- `flagcxIbSeqLess` of a build, on unsigned 32-bit values. -/
def Build.seqLess (build : Build) (a b : Nat) : Bool :=
  let diff := (a + 2 ^ 32 - b) % 2 ^ 32 &&& build.seqMask
  diff != 0 && decide (build.seqMask >>> 1 < diff)

def Build.seqLeq (build : Build) (a b : Nat) : Bool := a == b || build.seqLess a b

/-! ## The ring -/

/-- The fields of `flagcxIbRetransEntry` for a single packet. -/
structure Packet where
  size : Nat
  data : Option (Nat → UInt8)
  remoteAddr : Nat
  lkeys : Dev → Nat
  rkeys : Dev → Nat

def Packet.none : Packet := ⟨0, .none, 0, fun _ => 0, fun _ => 0⟩

/-- A slot of the ring: `flagcxIbRetransEntry`. -/
structure Slot where
  entry : RetransEntry
  packet : Packet
  valid : Bool

def Slot.seq (s : Slot) : Nat := s.entry.batch.seq

structure RingComm where
  comm : SendComm
  enabled : Bool
  slots : Nat → Slot
  bufferHead : Nat
  bufferTail : Nat
  bufferCount : Nat
  outstandingSends : Nat
  maxOutstanding : Nat
  retransUsesRc : Bool
  retransHdrMr : Bool

/-- What a retransmission meets: the clock, the answers to the posts, and on the legacy path whether the queue pair is usable
and which completions, some of retransmissions, the poll of a full queue finds. -/
structure ResendEnv where
  nowUs : Nat
  post : Nat → Result
  qpValid : Bool
  legacyPost : Result
  polled : Nat
  retired : Nat
  retryPost : Result

namespace RingComm

def setSlot (r : RingComm) (i : Nat) (s : Slot) : RingComm := { r with slots := Function.update r.slots i s }

/-- Drop the slot at the head: it becomes `s`, no longer valid. -/
def popHead (r : RingComm) (s : Slot) : RingComm :=
  { r.setSlot r.bufferHead { s with valid := false } with
    bufferHead := (r.bufferHead + 1) % maxInflight
    bufferCount := r.bufferCount - 1 }

def pushTail (r : RingComm) (s : Slot) : RingComm :=
  { r.setSlot r.bufferTail s with
    bufferTail := (r.bufferTail + 1) % maxInflight
    bufferCount := r.bufferCount + 1 }

/-- `flagcxIbRetransAddPacket`. A full ring drops its oldest packet. -/
def addPacket (r : RingComm) (seq : Nat) (packet : Packet) (nowUs : Nat) : RingComm :=
  if r.enabled = false then r
  else
    let r := if maxInflight ≤ r.bufferCount then r.popHead (r.slots r.bufferHead) else r
    r.pushTail {
      entry := ⟨⟨0, seq, 0, 0, 0, [], []⟩, nowUs, 0, 0, 0, false⟩, packet := packet, valid := true }

/-- `flagcxIbRetransAddBatch`. -/
def addBatch (r : RingComm) (b : Batch) (nowUs : Nat) : Result × RingComm :=
  if b.nreqs = 0 ∨ maxRecvs < b.nreqs then (.invalidArgument, r)
  else if r.enabled = false then (.success, r)
  else if maxInflight ≤ r.bufferCount then (.internalError, r)
  else (.success, { r with comm := { r.comm with events := holdRequests r.comm.events b.requests b.ackDevIndex } }.pushTail
    { entry := ⟨b, nowUs, 0, 0, 0, true⟩, packet := Packet.none, valid := true })

/-! ## Acknowledgements -/

/-- The branch of the loop that frees the head, with `flagcxIbRetransReleaseRequests`. -/
def freeHead (build : Build) (r : RingComm) : RingComm :=
  let s := r.slots r.bufferHead
  let b := s.entry.batch
  { r with comm := { r.comm with
      events := dropRequests r.comm.events b.requests b.ackDevIndex
      sendUna := (b.seq + 1) &&& build.seqMask } }.popHead
    { s with entry := { s.entry with batch := { b with requests := [], segments := [] } } }

/-- The loop of `flagcxIbRetransProcessAck`: every turn takes one from `bufferCount`. -/
def freeAcked (build : Build) (ackSeq : Nat) : Nat → RingComm → RingComm
  | 0, r => r
  | n + 1, r =>
    let s := r.slots r.bufferHead
    if s.valid = false then freeAcked build ackSeq n (r.popHead s)
    else if build.seqLeq s.seq ackSeq then freeAcked build ackSeq n (r.freeHead build)
    else r

/-- `flagcxIbRetransProcessAck`; a SACK retires nothing. -/
def processAck (build : Build) (r : RingComm) (ack : AckMsg) (nowUs : Nat) : RingComm :=
  if r.enabled = false then r
  else
    let rttUs := (nowUs + 2 ^ 64 - ack.timestampUs) % 2 ^ 64
    let comm := if 0 < ack.timestampUs ∧ rttUs < 10000000 then updateRTO r.comm rttUs else r.comm
    freeAcked build ack.ackSeq r.bufferCount { r with comm := comm }

/-! ## Retransmission -/

/-- The search of `flagcxIbRetransResendViaSend` from slot `idx` on, over `n` slots. -/
def findSeq (r : RingComm) (seq : Nat) : Nat → Nat → Option Nat
  | 0, _ => none
  | n + 1, idx =>
    if (r.slots idx).valid = true ∧ (r.slots idx).seq = seq then some idx
    else findSeq r seq n ((idx + 1) % maxInflight)

/-- The legacy SEND path of `flagcxIbRetransResendViaSend` for the slot it found. -/
def resendLegacy (r : RingComm) (idx : Nat) (env : ResendEnv) : Result × RingComm :=
  let s := r.slots idx
  if s.packet.data.isNone ∨ s.packet.size = 0 then (.internalError, r)
  else if r.maxOutstanding ≤ r.outstandingSends + r.comm.outstandingRetrans then (.success, r)
  else if env.qpValid = false then (.internalError, r)
  else
    let polls := env.legacyPost ≠ .success ∧ 0 < env.polled
    let outstanding := if polls then r.comm.outstandingRetrans - env.retired else r.comm.outstandingRetrans
    let posted := env.legacyPost = .success ∨ (polls ∧ env.retryPost = .success)
    if posted then
      (.success, { r with comm := { r.comm with outstandingRetrans := outstanding + 1 } }.setSlot idx
        { s with entry := { s.entry with retryCount := s.entry.retryCount + 1, sendTimeUs := env.nowUs } })
    else (.success, { r with comm := { r.comm with outstandingRetrans := outstanding } })

/-- `flagcxIbRetransResendViaSend`. -/
def resendViaSend (r : RingComm) (seq : Nat) (env : ResendEnv) : Result × RingComm :=
  if r.enabled = false then (.success, r)
  else if r.retransUsesRc = false ∧ r.retransHdrMr = false then (.success, { r with enabled := false })
  else
    match r.findSeq seq r.bufferCount r.bufferHead with
    | none => (.success, r)
    | some idx =>
      let s := r.slots idx
      if r.retransUsesRc = true ∧ 0 < s.entry.batch.nreqs then
        let out := resendEntry r.comm s.entry env.nowUs env.post
        (out.1, { r with comm := out.2.1 }.setSlot idx { s with entry := out.2.2.1 })
      else r.resendLegacy idx env

/-- The loop of `flagcxIbRetransCheckTimeout` from slot `idx` on, over `n` slots; a retransmission ends it
(`MAX_RETRANS_PER_CALL` = 1). -/
def checkTimeoutFrom (r : RingComm) (env : ResendEnv) : Nat → Nat → Result × RingComm
  | 0, _ => (.success, r)
  | n + 1, idx =>
    let s := r.slots idx
    let usesRc := r.retransUsesRc = true ∧ 0 < s.entry.batch.nreqs
    if s.valid = false then checkTimeoutFrom r env n ((idx + 1) % maxInflight)
    else if usesRc ∧ s.entry.retransAllPosted = false then
      let out := r.resendViaSend s.seq env
      (if out.1 = .inProgress then .success else out.1, out.2)
    else if r.comm.rtoUs ≤ (env.nowUs + 2 ^ 64 - s.entry.sendTimeUs) % 2 ^ 64 then
      if r.comm.maxRetry ≤ s.entry.retryCount then (.remoteError, r)
      else if usesRc ∧ 0 < r.comm.outstandingRetrans then (.success, r)
      else
        let r := if usesRc then r.setSlot idx { s with entry := s.entry.restart } else r
        let out := r.resendViaSend s.seq env
        if out.1 = .success then
          (.success, { out.2 with comm := { out.2.comm with
            rtoUs := if out.2.comm.maxRtoUs < out.2.comm.rtoUs * 2 then out.2.comm.maxRtoUs
              else out.2.comm.rtoUs * 2 } })
        else (if out.1 = .inProgress then .success else out.1, out.2)
    else checkTimeoutFrom r env n ((idx + 1) % maxInflight)

/-- `flagcxIbRetransCheckTimeout`. -/
def checkTimeout (r : RingComm) (env : ResendEnv) : Result × RingComm :=
  if r.enabled = false ∨ r.bufferCount = 0 then (.success, r)
  else r.checkTimeoutFrom env r.bufferCount r.bufferHead

end RingComm

/-! ## Sequences of calls -/

inductive RingCall where
  | sendPacket (packet : Packet) (nowUs : Nat)
  | sendBatch (batch : Batch) (nowUs : Nat)
  | processAck (ack : AckMsg) (nowUs : Nat)
  | checkTimeout (env : ResendEnv)
  | resend (seq : Nat) (env : ResendEnv)

def RingComm.takeSeq (build : Build) (r : RingComm) : Nat × RingComm :=
  (r.comm.sendSeq, { r with comm := { r.comm with sendSeq := (r.comm.sendSeq + 1) &&& build.seqMask } })

/-- One call. A send takes its sequence number as `flagcxIbMultiSend` and `flagcxIbucMultiSend` do. -/
def RingComm.step (build : Build) (r : RingComm) : RingCall → RingComm
  | .sendPacket packet nowUs =>
    if r.enabled = false then r else (r.takeSeq build).2.addPacket (r.takeSeq build).1 packet nowUs
  | .sendBatch batch nowUs =>
    if r.enabled = false then r
    else ((r.takeSeq build).2.addBatch { batch with seq := (r.takeSeq build).1 } nowUs).2
  | .processAck ack nowUs => r.processAck build ack nowUs
  | .checkTimeout env => (r.checkTimeout env).2
  | .resend seq env => (r.resendViaSend seq env).2

end FlagCX.Ib
