import FlagCX.Lib.Chunking
import FlagCX.Lib.EarlyReturn
import FlagCX.P2pShm.Identity
import FlagCX.Result

/-!
# The slots of an intra-node connection (`flagcxP2pProxySend`, `flagcxP2pProxyRecv`)

Two proxies share a `flagcxP2pShm`. Each has a queue of operations and progresses the one at its head, call by call; the two
meet in a slot each, found from the identity of the operation.

* `Link`           : a connection, with the operations of both queues.
* `progress`       : the two progress functions, which differ in the role only; `proxySend`, `proxyRecv`.
* `step`           : a call and what `progressOps` does after it.

The stream, the kind of each copy and `copyStarted`, which nothing reads, are left out. The flags are of type `int` and hold 0
or 1.
-/

namespace FlagCX.P2pShm
open Lib Function Option

/-! ## Operations -/

/-- The two ends of a connection. -/
inductive Role where
  | send
  | recv
  deriving DecidableEq, Repr

def Role.peer : Role → Role
  | .send => .recv
  | .recv => .send

@[simp] theorem Role.peer_peer (r : Role) : r.peer.peer = r := by cases r <;> rfl

theorem Role.peer_ne (r : Role) : r.peer ≠ r := by cases r <;> decide

theorem Role.eq_or_eq_peer (r s : Role) : s = r ∨ s = r.peer := by cases r <;> cases s <;> decide

/-- `flagcxP2pTransferPlan`. -/
inductive Plan where
  | pending
  | fifo
  | read
  | write
  deriving DecidableEq, Repr

/-- `flagcxP2pResolveTransferPlan`. The flags it refuses are not of type `Bool`. -/
def resolveTransferPlan (senderRegistered receiverRegistered senderForceFifo receiverForceFifo : Bool) : Plan :=
  if senderForceFifo ∨ receiverForceFifo then .fifo
  else if receiverRegistered then .write
  else if senderRegistered then .read
  else .fifo

theorem resolveTransferPlan_ne (a b c d : Bool) : resolveTransferPlan a b c d ≠ .pending := by
  revert a b c d
  decide

/-- The side that copies, unless the message goes through the FIFO. -/
def copier : Plan → Option Role
  | .write => some .send
  | .read => some .recv
  | _ => none

theorem registered_of_copier {registered : Role → Bool} {a b : Bool} {r : Role}
    (h : copier (resolveTransferPlan (registered .send) (registered .recv) a b) = some r) : registered r.peer = true := by
  unfold resolveTransferPlan at h
  split_ifs at h with hforce hrecv hsend
  · cases h
  · cases h
    exact hrecv
  · cases h
    exact hsend
  · cases h

/-- What `flagcxP2pRegisterBuffer` left in the arguments; the address 0 is null. -/
structure Registration where
  regBufFlag : Bool
  rmtAddr : Nat
  fallbackRequired : Bool
  deriving DecidableEq, Repr

/-- `registered`: the buffer can be read and written by the peer. -/
def Registration.registered (reg : Registration) : Bool := reg.regBufFlag ∧ reg.rmtAddr ≠ 0

/-- An operation: its chunks, its data type, its place in its flow, and the registrations of the two ends. -/
structure Transfer extends Chunking where
  dtype : Nat
  counter : BitVec 32
  registration : Role → Registration

/-- A connection from the rank `src` to the rank `dst`, with `count` operations and `chunks` places in the FIFO
(`flagcxP2pChunks`). -/
structure Link where
  src : Nat
  dst : Nat
  chunks : Nat
  count : Nat
  transfer : Nat → Transfer
  chunks_pow : ∃ e, chunks = 2 ^ e
  inRange : ∀ k, Flow.InRange ⟨src, dst, (transfer k).size, (transfer k).dtype⟩

namespace Link
variable (l : Link) (r : Role) (k : Nat)

def flow : Flow := ⟨l.src, l.dst, (l.transfer k).size, (l.transfer k).dtype⟩

def keyArgs : KeyArgs := if r = .recv then (l.flow k).recvKey else (l.flow k).sendKey

/-- `p2pOpHash` and `p2pSlotIdx`; on the other side they are `p2pPeerOpHash` and `p2pPeerSlotIdx`. -/
def info : SlotInfo := slotInfo ((makeKey (l.keyArgs r k)).getD 0) (r = .recv) (l.transfer k).counter

/-- `p2pOpHash`. -/
def hash : BitVec 64 := (l.info r k).opHash

/-- `p2pSlotIdx`. -/
def idx : Nat := (l.info r k).slotIdx

def sendStepMask : Nat := l.chunks - 1

def planOf : Plan :=
  let sender := (l.transfer k).registration .send
  let receiver := (l.transfer k).registration .recv
  resolveTransferPlan sender.registered receiver.registered sender.fallbackRequired receiver.fallbackRequired

theorem chunks_pos : 0 < l.chunks := by
  obtain ⟨e, he⟩ := l.chunks_pow
  rw [he]
  exact Nat.two_pow_pos e

theorem and_sendStepMask : k &&& l.sendStepMask = k % l.chunks := by
  obtain ⟨e, he⟩ := l.chunks_pow
  rw [sendStepMask, he]
  exact Nat.and_two_pow_sub_one_eq_mod k e

theorem planOf_ne : l.planOf k ≠ .pending := resolveTransferPlan_ne _ _ _ _

end Link

/-! ## The shared memory and the arguments -/

structure SyncSlot where
  sendHead : Nat
  recvTail : Nat
  opHash : BitVec 64
  done : Bool
  peerDone : Bool

/-- The hash of a free slot, `-1`. -/
def freeHash : BitVec 64 := -1

structure RegInfo where
  copyDone : Bool
  offerReady : Bool
  registered : Bool
  forceFifo : Bool
  remoteAddr : Nat

def RegInfo.zero : RegInfo := ⟨false, false, false, false, 0⟩

/-- The fields of the `flagcxProxyArgs` of the operation `cur` at the head of a queue, and the operation and chunk that the
events were last recorded for. `halted` : a call returned an error, which ends the queue. -/
structure Side where
  cur : Nat
  done : Bool
  copied : Nat
  transmitted : Nat
  totalCopySize : Nat
  p2pPlan : Plan
  events : Nat → Nat × Nat
  halted : Bool

/-- What a proxy does. `reset` : a slot was reset for an operation; `planned` : the plan was resolved; `chunk` : the copy of a
chunk was issued, between this offset of the user's buffer and the place `fifo`; `direct` : the copy of the whole message was;
`chunkDone`, `directDone` : the event after it has passed; `finished` : the own slot is done, and the peer's was told;
`reported` : the operation is done and its slot free. -/
inductive Event where
  | reset (r : Role) (k : Nat)
  | planned (r : Role) (k : Nat) (p : Plan)
  | chunk (r : Role) (k chunk offset length fifo : Nat)
  | chunkDone (r : Role) (k chunk : Nat)
  | direct (r : Role) (k addr size : Nat)
  | directDone (r : Role) (k : Nat)
  | finished (r : Role) (k : Nat)
  | reported (r : Role) (k : Nat)
  deriving DecidableEq, Repr

structure World where
  slots : Nat → SyncSlot
  regInfos : Nat → RegInfo
  side : Role → Side
  trace : List Event

namespace World

def setSlot (w : World) (i : Nat) (s : SyncSlot) : World := { w with slots := update w.slots i s }

def setReg (w : World) (i : Nat) (g : RegInfo) : World := { w with regInfos := update w.regInfos i g }

def setSide (w : World) (r : Role) (s : Side) : World := { w with side := update w.side r s }

def log (w : World) (e : Event) : World := { w with trace := w.trace ++ [e] }

section Pointers
variable (w : World) (l : Link) (r : Role)

def slotPtr : SyncSlot := w.slots (l.idx r (w.side r).cur)

def peerSlotPtr : SyncSlot := w.slots (l.idx r.peer (w.side r).cur)

def regInfoPtr : RegInfo := w.regInfos (l.idx r (w.side r).cur)

def peerRegInfoPtr : RegInfo := w.regInfos (l.idx r.peer (w.side r).cur)

def setSlotPtr (s : SyncSlot) : World := w.setSlot (l.idx r (w.side r).cur) s

def setPeerSlotPtr (s : SyncSlot) : World := w.setSlot (l.idx r.peer (w.side r).cur) s

def setRegInfoPtr (g : RegInfo) : World := w.setReg (l.idx r (w.side r).cur) g

end Pointers

end World

/-- The arguments of operation `k`. -/
def Side.start (s : Side) (k : Nat) : Side :=
  { s with cur := k, done := false, copied := 0, transmitted := 0, totalCopySize := 0, p2pPlan := .pending }

/-- The shared memory as `flagcxP2pSendProxySetup` leaves it, and the arguments of the first operation on both sides. -/
def World.init (l : Link) : World where
  slots _ := ⟨0, l.chunks, freeHash, true, true⟩
  regInfos _ := .zero
  side _ := Side.start ⟨0, false, 0, 0, 0, .pending, fun _ => (0, 0), false⟩ 0
  trace := []

/-! ## The progress functions -/

/-- What a call is answered: by the semaphore before and after it, and by the device. -/
structure Answers where
  pollStart : Bool
  pollEnd : Bool
  deviceMemcpy : Result
  eventRecord : Result
  eventQuery : Result

/-- The counter of the peer's slot that a side waits for: `recvTail` or `sendHead`. -/
def SyncSlot.limit (s : SyncSlot) : Role → Nat
  | .send => s.recvTail
  | .recv => s.sendHead

/-- The counter of the own slot that a side advances: `sendHead` or `recvTail`. -/
def SyncSlot.advance (s : SyncSlot) (transmitted chunks : Nat) : Role → SyncSlot
  | .send => { s with sendHead := transmitted }
  | .recv => { s with recvTail := transmitted + chunks }

def RegInfo.publish (g : RegInfo) (reg : Registration) : RegInfo :=
  { g with
    offerReady := true, registered := reg.registered, forceFifo := reg.fallbackRequired,
    remoteAddr := if reg.registered then reg.rmtAddr else 0 }

/-- `FLAGCXCHECK` on an answer of the device. -/
def check (result : Result) : Body Result World := fun w => if result.accepted then (none, w) else (some result, w)

/-- An event is queried (`flagcxTransportClassifyCompletion`); `passed` follows when it has passed. -/
def query (result : Result) (passed : World → World) : Body Result World := fun w =>
  if result = .success then (none, passed w)
  else if result = .inProgress then (none, w)
  else (some result, w)

section Calls
variable (l : Link) (r : Role) (ans : Answers)

/-- The own slot is reset if it is free (`slotIsReusable`, `resetSlot`). -/
def resetSlot : Body Result World := fun w =>
  let k := (w.side r).cur
  if (w.slotPtr l r).opHash = freeHash then
    (none, ((w.setRegInfoPtr l r .zero).setSlotPtr l r ⟨0, l.chunks, l.hash r k, false, false⟩).log (.reset r k))
  else (none, w)

def ownSlot : Body Result World := fun w =>
  if (w.slotPtr l r).opHash ≠ l.hash r (w.side r).cur then (some .success, w) else (none, w)

def peerSlot : Body Result World := fun w =>
  if (w.peerSlotPtr l r).opHash ≠ l.hash r.peer (w.side r).cur ∧ (w.slotPtr l r).peerDone = false then (some .success, w)
  else (none, w)

/-- The first part of `p2pPublishOfferAndResolvePlan`. -/
def publishOffer : Body Result World := fun w =>
  if (w.regInfoPtr l r).offerReady = false then
    (none, w.setRegInfoPtr l r ((w.regInfoPtr l r).publish ((l.transfer (w.side r).cur).registration r)))
  else (none, w)

/-- Its second part: the call returns while the peer has made no offer. -/
def awaitOffer : Body Result World := fun w =>
  if (w.peerRegInfoPtr l r).offerReady = false then (some .success, w) else (none, w)

/-- The offers of the sender and of the receiver, as a side sees them. -/
def World.offers (w : World) : RegInfo × RegInfo :=
  match r with
  | .send => (w.regInfoPtr l .send, w.peerRegInfoPtr l .send)
  | .recv => (w.peerRegInfoPtr l .recv, w.regInfoPtr l .recv)

def resolvePlan : Body Result World := fun w =>
  let s := w.side r
  let (sender, receiver) := w.offers l r
  if s.p2pPlan = .pending then
    let plan := resolveTransferPlan sender.registered receiver.registered sender.forceFifo receiver.forceFifo
    (none, (w.setSide r { s with p2pPlan := plan }).log (.planned r s.cur plan))
  else (none, w)

/-- Both slots are told that this side is done. -/
def tellPeer : Body Result World := fun w =>
  if (w.slotPtr l r).done = false then
    let w := w.setSlotPtr l r { w.slotPtr l r with done := true }
    (none, (w.setPeerSlotPtr l r { w.peerSlotPtr l r with peerDone := true }).log (.finished r (w.side r).cur))
  else (none, w)

/-- The slot is freed once both sides are done (`slotIsComplete`). -/
def retire : Body Result World := fun w =>
  let s := w.side r
  if (w.slotPtr l r).done ∧ (w.slotPtr l r).peerDone then
    (none, ((w.setSlotPtr l r { w.slotPtr l r with opHash := freeHash }).setSide r { s with done := true }).log
      (.reported r s.cur))
  else (none, w)

/-- The copy of the whole message, to or from the address that the peer has offered. -/
def issueDirect : Body Result World := fun w =>
  let s := w.side r
  let t := l.transfer s.cur
  if s.copied = 0 then
    Body.andThen (check ans.deviceMemcpy)
      (Body.andThen (fun w => (none, w.log (.direct r s.cur (w.peerRegInfoPtr l r).remoteAddr t.size)))
        (Body.andThen (check ans.eventRecord) fun w =>
          (none, w.setSide r { s with
            copied := t.chunkSteps.toNat, totalCopySize := t.size, events := update s.events 0 (s.cur, 0) }))) w
  else (none, w)

def queryDirect : Body Result World := fun w =>
  let s := w.side r
  if s.transmitted < s.copied then
    query ans.eventQuery (fun w =>
      ((w.setRegInfoPtr l r { w.regInfoPtr l r with copyDone := true }).setSide r
        { s with transmitted := (l.transfer s.cur).chunkSteps.toNat }).log (.directDone r (s.events 0).1)) w
  else (none, w)

/-- The side that does not copy waits for `copyDone`. -/
def awaitDirect : Body Result World := fun w =>
  let s := w.side r
  let t := l.transfer s.cur
  if (w.peerRegInfoPtr l r).copyDone then
    (none, w.setSide r { s with
      copied := t.chunkSteps.toNat, transmitted := t.chunkSteps.toNat, totalCopySize := t.size })
  else (none, w)

/-- The copy of the next chunk, into the FIFO or out of it. -/
def issueChunk : Body Result World := fun w =>
  let s := w.side r
  let t := l.transfer s.cur
  if (s.copied : Int) < t.chunkSteps ∧ (s.copied : Int) - s.transmitted < l.chunks ∧
      s.copied < (w.peerSlotPtr l r).limit r then
    let step := s.copied &&& l.sendStepMask
    let stepSize := t.stepSize s.totalCopySize
    Body.andThen (check ans.deviceMemcpy) (Body.andThen
        (fun w => (none, w.log (.chunk r s.cur s.copied s.totalCopySize (toSize stepSize) (t.chunkSize * step))))
        (Body.andThen (check ans.eventRecord) fun w =>
          (none, w.setSide r { s with
            copied := s.copied + 1, totalCopySize := Chunking.addSize s.totalCopySize stepSize,
            events := update s.events step (s.cur, s.copied) }))) w
  else (none, w)

def queryChunk : Body Result World := fun w =>
  let s := w.side r
  if s.transmitted < s.copied then
    query ans.eventQuery (fun w =>
      let e := s.events (s.transmitted &&& l.sendStepMask)
      ((w.setSlotPtr l r ((w.slotPtr l r).advance (s.transmitted + 1) l.chunks r)).setSide r
        { s with transmitted := s.transmitted + 1 }).log (.chunkDone r e.1 e.2)) w
  else (none, w)

/-- While chunks are left, `move`; then the side finishes. -/
def orFinish (move : Body Result World) : Body Result World := fun w =>
  let s := w.side r
  if (s.transmitted : Int) < (l.transfer s.cur).chunkSteps then move w
  else Body.andThen (tellPeer l r) (retire l r) w

/-- The part of the functions after the plan is resolved. -/
def transferData : Body Result World := fun w =>
  match copier (w.side r).p2pPlan with
  | some c =>
    if r = c then orFinish l r (Body.andThen (issueDirect l r ans) (queryDirect l r ans)) w
    else orFinish l r (awaitDirect l r) w
  | none => orFinish l r (Body.andThen (issueChunk l r ans) (queryChunk l r ans)) w

/-- The part of the functions after the slot is the operation's own. -/
def handshake : Body Result World :=
  Body.andThen (peerSlot l r) <| Body.andThen (publishOffer l r) <| Body.andThen (awaitOffer l r) <|
    Body.andThen (resolvePlan l r) (transferData l r ans)

def progress : World → Result × World :=
  Body.call (fun w =>
    if (w.side r).done then (some .success, w)
    else if ¬ ans.pollStart then (some .success, w)
    else Body.andThen (resetSlot l r) (Body.andThen (ownSlot l r) (handshake l r ans)) w) .success

def proxySend : World → Result × World := progress l .send ans

def proxyRecv : World → Result × World := progress l .recv ans

def progressProxyOp : World → Result × World :=
  match r with
  | .send => proxySend l ans
  | .recv => proxyRecv l ans

/-- What `progressOps` does after a call: an error ends the queue, a done operation is removed when its group has ended. -/
def afterCall (out : Result × World) : World :=
  let s := out.2.side r
  if ¬ out.1.accepted then out.2.setSide r { s with halted := true }
  else if s.done ∧ ans.pollEnd then out.2.setSide r (s.start (s.cur + 1))
  else out.2

end Calls

/-- One side progresses the operation at the head of its queue. -/
def step (l : Link) (w : World) (a : Role × Answers) : Option World :=
  let s := w.side a.1
  if s.halted ∨ l.count ≤ s.cur then none
  else some (afterCall a.1 a.2 (progressProxyOp l a.1 a.2 w))

theorem progressProxyOp_eq (l : Link) (r : Role) (ans : Answers) : progressProxyOp l r ans = progress l r ans := by
  cases r <;> rfl

/-! ## What the identities of the operations have in common -/

namespace Link
variable {l : Link} {r : Role} {j k : Nat}

/-- The part of the keys of a side that all operations share. -/
def base (l : Link) (r : Role) : Nat := 2 ^ 50 * (l.keyArgs r 0).rank + 2 ^ 45 * (l.keyArgs r 0).deltaEnc

/-- The part of the hash of an operation that the two sides share. -/
def tag (l : Link) (k : Nat) : BitVec 64 :=
  BitVec.ofNat 64 (2 ^ 8 * (l.transfer k).size + 2 ^ 4 * (l.transfer k).dtype) + (l.transfer k).counter.signExtend 64

theorem keyArgs_inRange (l : Link) (r : Role) (k : Nat) : (l.keyArgs r k).InRange := by
  obtain ⟨hsend, hrecv⟩ := l.inRange k
  cases r
  · exact hsend
  · exact hrecv

theorem makeKey_isSome (l : Link) (r : Role) (k : Nat) :
    ∃ key, makeKey (l.keyArgs r k) = some key ∧
      key.toNat = l.base r + (2 ^ 8 * (l.transfer k).size + 2 ^ 4 * (l.transfer k).dtype) := by
  obtain ⟨key, hkey⟩ : ∃ key, makeKey (l.keyArgs r k) = some key := ⟨_, if_pos (l.keyArgs_inRange r k)⟩
  refine ⟨key, hkey, ?_⟩
  rw [(makeKey_toNat hkey).2, base]
  cases r <;> simp [keyArgs, flow, Flow.sendKey, Flow.recvKey, KeyArgs.deltaEnc, add_assoc]

theorem hash_eq (l : Link) (r : Role) (k : Nat) : l.hash r k = BitVec.ofNat 64 (l.base r) + l.tag k := by
  obtain ⟨key, hkey, hnat⟩ := l.makeKey_isSome r k
  have hsplit : key = BitVec.ofNat 64 (l.base r) +
      BitVec.ofNat 64 (2 ^ 8 * (l.transfer k).size + 2 ^ 4 * (l.transfer k).dtype) := by
    rw [← BitVec.ofNat_add, ← hnat, BitVec.ofNat_toNat, BitVec.setWidth_eq]
  rw [hash, info, hkey, getD_some, slotInfo, tag, ← BitVec.add_assoc, ← hsplit]

theorem hash_peer : l.hash r.peer j = l.hash r.peer k ↔ l.hash r j = l.hash r k := by
  simp only [hash_eq, BitVec.add_right_inj]

theorem idx_of_hash (h : l.hash r j = l.hash r k) : l.idx r j = l.idx r k := by
  have hidx : ∀ k, l.idx r k = (l.hash r k).toNat % halfOps + if r = .recv then halfOps else 0 := by
    intro k
    simp [idx, hash, info, slotInfo]
  rw [hidx, hidx, h]

theorem idx_ne (l : Link) (r : Role) (j k : Nat) : l.idx r j ≠ l.idx r.peer k := by
  have hhalf : ∀ k, l.idx .send k < halfOps ∧ halfOps ≤ l.idx .recv k := by
    intro k
    refine ⟨?_, ?_⟩
    · exact Nat.mod_lt _ (by decide)
    · exact Nat.le_add_left _ _
  have hj := hhalf j
  have hk := hhalf k
  cases r <;> simp only [Role.peer] <;> omega

theorem hash_ne_free (l : Link) (r : Role) (k : Nat) : l.hash r k ≠ freeHash := by
  obtain ⟨key, hkey, -⟩ := l.makeKey_isSome r k
  obtain ⟨⟨hrank, hpeer, hsize, hdtype, hlow, hhigh⟩, hnat⟩ := makeKey_toNat hkey
  intro h
  rw [hash, info, hkey, getD_some, slotInfo] at h
  have hword := congrArg BitVec.toNat h
  rw [BitVec.toNat_add, BitVec.toNat_signExtend] at hword
  have hfree : freeHash.toNat = 2 ^ 64 - 1 := rfl
  rw [hfree, hnat, BitVec.toNat_setWidth, KeyArgs.deltaEnc] at hword
  have hmsb := BitVec.msb_eq_decide (l.transfer k).counter
  split at hword
  · rename_i hneg
    omega
  · rename_i hpos
    rw [Bool.not_eq_true] at hpos
    omega

end Link

/-! ## Connections whose operations come from two processes -/

namespace Link

def rank (l : Link) : Role → Nat
  | .send => l.src
  | .recv => l.dst

/-- The operations of a side, on one communicator. -/
def ops (l : Link) (r : Role) : List Op :=
  (List.range l.count).map fun k => ⟨0, r = .recv, l.rank r.peer, (l.transfer k).size, (l.transfer k).dtype⟩

/-- The identities of the operations are those that `flagcxP2pPrepareProxyOp` gives them in a process that issues no others. -/
def Prepared (l : Link) (r : Role) : Prop :=
  (Process.of (l.rank r) (l.ops r)).prepare = some ((List.range l.count).map fun k => ⟨l.info r k, l.info r.peer k⟩)

instance (l : Link) (r : Role) : Decidable (l.Prepared r) := inferInstanceAs (Decidable (_ = _))

end Link

scoped instance neZeroSize : NeZero 256 := ⟨by decide⟩

scoped instance neZeroDtype : NeZero 16 := ⟨by decide⟩

/-- An operation of a few bytes without registered buffers, with the buffers of the default configuration: four chunks, and a
buffer of a 64th of 64 MiB. -/
def Transfer.plain (size : Fin 256) (dtype : Fin 16) (counter : BitVec 32) : Transfer where
  size := size
  chunkSize := 64 * 1024 * 1024 / 64 / 4
  size_lt := by omega
  chunkSize_pos := by decide
  chunkSize_lt := by decide
  dtype := dtype
  counter := counter
  registration _ := ⟨false, 0, false⟩

/-- A connection from rank 0 to rank 1 with such operations. -/
def Link.plain (count : Nat) (transfer : Nat → Fin 256 × Fin 16 × BitVec 32) : Link where
  src := 0
  dst := 1
  chunks := 4
  count := count
  transfer k := .plain (transfer k).1 (transfer k).2.1 (transfer k).2.2
  chunks_pow := ⟨2, rfl⟩
  inRange k := by
    have hsize := (transfer k).1.isLt
    have hdtype := (transfer k).2.1.isLt
    simp only [Flow.InRange, KeyArgs.InRange, Flow.sendKey, Flow.recvKey, Transfer.plain]
    omega

theorem Link.plain_fits (count : Nat) (transfer : Nat → Fin 256 × Fin 16 × BitVec 32) (k : Nat) :
    ((Link.plain count transfer).transfer k).Fits := by
  refine ⟨?_, ?_⟩
  · change min _ (transfer k).1.val < _
    omega
  · change ((transfer k).1.val + 64 * 1024 * 1024 / 64 / 4 - 1) / (64 * 1024 * 1024 / 64 / 4) < _
    omega

def Answers.prompt : Answers := ⟨true, true, .success, .success, .success⟩

def prompt (calls : List Role) : List (Role × Answers) := calls.map fun r => (r, .prompt)

def oneChunk : List Role := [.send, .recv, .send, .send, .recv, .recv, .send]

end FlagCX.P2pShm
