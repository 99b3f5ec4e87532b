import FlagCX.Lib.WordRing
import FlagCX.Rma.Desc

/-!
# The RMA proxy: state, producers and completion (`flagcx_hetero.cc`)

* `Config` is what `flagcxHeteroRmaProxyStart` fixes, with its checks as fields. The allocations of the start succeed;
  `doneSeqsCpu` follows `doneSeqs` and is left out.
* A producer holds `peerProducerMutexes[peer]` from the checks of its loop to the publication, so a call is two steps:
  `admitCall`, which takes the lock when the checks pass, and `publish`. A producer that has to wait or to retry enters again.
  Between the two the progress thread goes on. The IPC GET keeps the lock until its event is armed (`arm`).
* The scoreboards and the release groups are a `Fabric`.
* `Note` are the observable events of a run.
-/

namespace FlagCX.Rma

open Net Lib
open KernelProxy (Domain)

/-! ## State -/

/-- What is fixed when the proxy starts, with the checks of `flagcxHeteroRmaProxyStart`. `batching` says that the
adaptor has `iputBatch`, `batchMax` is `flagcxParamRmaBatchMax()`, `requiresFlush` is
`flagcxOneSideGetCompletionRequiresFlush`, and `hasStaging` says that the staging buffer is registered. -/
structure Config (n : Nat) where
  queueSize : UInt32
  pow : ¬ (queueSize < 2 ∨ queueSize &&& (queueSize - 1) ≠ 0 ∨ uint32Max / 2 < queueSize)
  ranks : n * queueSize.toNat ≤ uint32Max.toNat
  batching : Bool
  batchMax : Int
  requiresFlush : Int → Bool
  mrIndexIsValid : Int → Bool
  hasStaging : Bool

def Config.queueMask {n : Nat} (c : Config n) : UInt32 := c.queueSize - 1

/-- Who holds `peerProducerMutexes[peer]`: nobody, a producer past its checks, or the IPC GET that has published the
slot at an index and still submits its copy. -/
inductive Lock where
  | free
  | admitted (e : Enqueue)
  | arming (idx : UInt32)
  deriving DecidableEq

/-- The entries of the per-peer arrays of `flagcxRmaProxyState`. `staging` is the peer's slot of the staging buffer,
and `signals` are the ready signals that wait on streams. -/
structure Peer where
  slots : Nat → Desc
  pi : UInt32
  ci : UInt32
  lock : Lock
  inProgress : List Desc
  opSeq : UInt64
  doneSeq : UInt64
  inFlight : UInt32
  readySeq : UInt64
  domains : Nat → Domain
  active : List Nat
  staging : UInt64
  signals : List UInt64

/-- Where the progress thread stands in `flagcxRmaProxyProgress`: in front of a pass, in the two walks over the requests in
progress and the one over the visibility domains, at the error check, in the drain or ring loop of a peer, behind a pass. -/
inductive Pc (n : Nat) where
  | start
  | idle
  | poll (p : Fin n) (i : Nat)
  | domains (p : Fin n) (i : Nat)
  | visible (p : Fin n) (i : Nat)
  | check (p : Fin n)
  | drain (p : Fin n)
  | ring (p : Fin n) (sendComm : Bool)
  | finish
  deriving DecidableEq

/-- The part of `flagcxRmaProxyState` that the descriptors move through. -/
structure Core (n : Nat) where
  peers : Fin n → Peer
  fabric : Fabric (Fin n)
  groupCount : Nat
  completionCount : UInt64

/-- `flagcxRmaProxyState`: the core, the flags, and where the progress thread stands. -/
structure Proxy (n : Nat) extends Core n where
  pendingError : Bool
  rmaError : Bool
  quiesced : Bool
  pc : Pc n

/-- `proxy->generation`, set once at the start. -/
def generation : UInt64 := 1

/-- What can be observed of a run: a descriptor is published (with the sequence whose ready signal it waits for), leaves the
ring, is handed over, has its data, is completed; a ready signal fires; a visibility flush is posted up to a target, or ends;
the network reads the staging slot of a put-value. -/
inductive Note (n : Nat) where
  | published (p : Fin n) (d : Submission) (awaits : Option UInt64)
  | consumed (p : Fin n) (d : Submission)
  | handed (p : Fin n) (d : Submission) (call : NetCall) (result : Result)
  | dataDone (p : Fin n) (d : Submission) (domain getSequence : Nat) (result : Result)
  | completed (p : Fin n) (d : Submission) (result tracked : Result)
  | fired (p : Fin n) (seq : UInt64)
  | flushPosted (p : Fin n) (domain : Nat) (orderingKey : UInt64) (target : Nat) (result : Result) (request : Bool)
  | flushEnded (p : Fin n) (domain : Nat) (orderingKey : UInt64) (target : Nat) (result : Result)
  | delivered (p : Fin n) (d : Submission) (value : UInt64)
  deriving DecidableEq

variable {n : Nat}

def Peer.init : Peer :=
  { slots := fun _ => Desc.zero, pi := 0, ci := 0, lock := .free, inProgress := [], opSeq := 0, doneSeq := 0,
    inFlight := 0, readySeq := 0, domains := fun _ => Domain.unused, active := [], staging := 0, signals := [] }

/-- `flagcxHeteroRmaProxyStart`: a scoreboard of twice the queue size for each peer. -/
def Proxy.init (c : Config n) (groups : Nat → ReleaseGroup) : Except Result (Proxy n) := do
  let scoreboard ← CompletionScoreboard.init (c.queueSize * 2) generation 1
  return {
    peers := fun _ => Peer.init, fabric := ⟨fun _ => scoreboard, groups⟩, groupCount := 0, completionCount := 0,
    pendingError := false, rmaError := false, quiesced := false, pc := .start }

def Core.setPeer (x : Core n) (p : Fin n) (peer : Peer) : Core n := { x with peers := Function.update x.peers p peer }

namespace Proxy

def setPeer (s : Proxy n) (p : Fin n) (peer : Peer) : Proxy n := { s with toCore := s.toCore.setPeer p peer }

def recordPendingError (s : Proxy n) : Proxy n := { s with pendingError := true }

def publishError (s : Proxy n) : Proxy n := { s.recordPendingError with rmaError := true }

end Proxy

/-! ## The ring -/

/-- `flagcxRmaProxyCircularBufFull`. -/
def circularBufFull (c : Config n) (peer : Peer) : Bool := decide (c.queueSize ≤ peer.pi - peer.ci)

/-- `flagcxRmaProxyCircularBufEmpty`. -/
def circularBufEmpty (peer : Peer) : Bool := decide (peer.pi ≤ peer.ci)

def Config.slot (c : Config n) (i : UInt32) : Nat := (i &&& c.queueMask).toNat

/-! ## Producers -/

/-- What `flagcxRmaProxyPrepareDesc` writes before it tracks the descriptor. -/
def prepared (opSeq : UInt64) (d : Desc) : Desc :=
  { d with
    request := false, completionResult := .inProgress, completionStage := .dataPosted, getSequence := 0,
    getVisibilityDomain := none, getDataComplete := false, opSeq := opSeq, generation := generation,
    sequence := opSeq }

def prepareDesc (s : Proxy n) (p : Fin n) (d : Desc) : Result × Proxy n × Desc :=
  let peer := s.peers p
  let d := prepared (peer.opSeq + 1) d
  let tracked := s.fabric.call (.submit p d.submitContext d.trackedGroup)
  let s := { s with fabric := tracked.2 }
  if tracked.1 = .success then (.success, s.setPeer p { peer with opSeq := peer.opSeq + 1 }, d)
  else (tracked.1, s, d)

def prepareDescs (p : Fin n) : Proxy n → List Desc → Result × Proxy n × List Desc
  | s, [] => (.success, s, [])
  | s, d :: ds =>
    let one := prepareDesc s p d
    if one.1 = .success then
      let rest := prepareDescs p one.2.1 ds
      (rest.1, rest.2.1, one.2.2 :: rest.2.2)
    else (one.1, one.2.1, [])

/-- `flagcxRmaProxyCancelDesc` of the prepared descriptors, last first, each giving its sequence back. The result is the
first one that is no success. -/
def rollback (p : Fin n) : Proxy n → List Desc → Result × Proxy n
  | s, [] => (.success, s)
  | s, d :: ds =>
    let rest := rollback p s ds
    let cancelled := rest.2.fabric.call (.cancel p d.submitContext)
    let s := { rest.2 with fabric := cancelled.2 }
    let peer := s.peers p
    (if rest.1 = .success then cancelled.1 else rest.1, s.setPeer p { peer with opSeq := peer.opSeq - 1 })

/-- The error that the top of an enqueue loop returns, if any. -/
def Proxy.refusal (s : Proxy n) : Enqueue → Option Result
  | .ipcGet _ => if s.quiesced || s.pendingError || s.rmaError then some .invalidUsage else none
  | _ => if s.quiesced then some .invalidUsage else if s.pendingError || s.rmaError then some .remoteError else none

def hasSpace (c : Config n) (peer : Peer) : Enqueue → Bool
  | .desc _ _ => !circularBufFull c peer
  | .batch ds => decide (ds.length ≤ (c.queueSize - (peer.pi - peer.ci)).toNat)
  | .releaseGroup data _ _ => decide (data.length + 1 ≤ (c.queueSize - (peer.pi - peer.ci)).toNat)
  | .ipcGet _ => !circularBufFull c peer

/-- The argument checks of the enqueue functions. An empty batch returns before it takes the lock. -/
def Enqueue.fits (c : Config n) : Enqueue → Bool
  | .desc _ _ => true
  | .batch ds => !ds.isEmpty && decide (ds.length ≤ c.queueSize.toNat)
  | .releaseGroup data _ _ => decide (data.length < c.queueSize.toNat)
  | .ipcGet _ => true

/-- `flagcxRmaMrIndexIsValid` on both regions. -/
def Extent.valid (c : Config n) (x : Extent) : Bool := c.mrIndexIsValid x.srcMrIdx && c.mrIndexIsValid x.dstMrIdx

/-- The argument checks of the entry points. -/
def ApiCall.valid (c : Config n) : ApiCall → Bool
  | .put x _ _ _ => x.valid c
  | .batchPut xs => xs.all (·.valid c)
  | .putSignal x _ _ _ _ _ => x.size == 0 || x.valid c
  | .batchPutSignal xs _ _ _ _ => !xs.isEmpty && xs.all (·.1.valid c)
  | .get x _ _ _ => x.valid c
  | .getIpc => true
  | .putValue _ _ dstMrIdx => c.mrIndexIsValid dstMrIdx

/-- A call that passes the checks of its entry point and of the loop of its enqueue function takes the lock. A call with
a release group has allocated and initialized it. -/
def admitCall (c : Config n) (s : Proxy n) (p : Fin n) (call : ApiCall) (groupId : UInt64) : Option (Proxy n) :=
  let peer := s.peers p
  let e := call.enqueue s.groupCount groupId
  if peer.lock = .free ∧ call.valid c ∧ e.fits c ∧ s.refusal e = none ∧ hasSpace c peer e then
    let s := s.setPeer p { peer with lock := .admitted e }
    match e with
    | .releaseGroup _ _ _ =>
      match releaseGroupInit groupId generation with
      | .error _ => none
      | .ok group => some { s with fabric := s.fabric.onGroup s.groupCount group, groupCount := s.groupCount + 1 }
    | _ => some s
  else none

/-- The slots are written and the producer index is advanced. `ready` is the store to `readySeqsCpu`, `signal` the ready
signal that the caller launches on its stream. -/
def store (c : Config n) (s : Proxy n) (p : Fin n) (ds : List Desc) (ready signal : Option UInt64) (lock : Lock) : Proxy n :=
  let peer := s.peers p
  s.setPeer p { peer with
    slots := fill c.queueMask peer.slots peer.pi ds
    readySeq := ready.getD peer.readySeq
    pi := peer.pi + UInt32.ofNat ds.length
    signals := peer.signals ++ signal.toList
    lock := lock }

/-- `flagcxNetReleaseGroupSeal` on the group of a descriptor. -/
def sealGroup (s : Proxy n) : Option Nat → Result × Proxy n
  | none => (.invalidArgument, s)
  | some group => ((s.fabric.call (.groupSeal group)).1, { s with fabric := (s.fabric.call (.groupSeal group)).2 })

def unlock (s : Proxy n) (p : Fin n) : Proxy n := s.setPeer p { s.peers p with lock := .free }

/-- The critical section of the enqueue functions, for the producer that holds the lock. -/
def publish (c : Config n) (s : Proxy n) (p : Fin n) : Option (Result × Proxy n × List (Note n)) :=
  match (s.peers p).lock with
  | .admitted (.desc d streamSyncReady) =>
    let out := prepareDescs p s [d]
    if out.1 ≠ .success then some (out.1, unlock out.2.1 p, [])
    else
      let last := (out.2.1.peers p).opSeq
      let signal := if streamSyncReady && !d.streamEvent then some last else none
      some (.success, store c out.2.1 p out.2.2 (if streamSyncReady then none else some last) signal .free,
        out.2.2.map fun d => .published p d.toSubmission signal)
  | .admitted (.batch ds) =>
    let out := prepareDescs p s ds
    if out.1 ≠ .success then
      let undone := rollback p out.2.1 out.2.2
      some (if undone.1 ≠ .success then undone.1 else out.1, unlock undone.2 p, [])
    else
      -- one ready publication covers every sequence of the batch
      some (.success, store c out.2.1 p out.2.2 (out.2.2.getLast?.map (·.opSeq)) none .free,
        out.2.2.map fun d => .published p d.toSubmission none)
  | .admitted (.releaseGroup data release streamSyncReady) =>
    -- the release is prepared after the data, and rolled back like them
    let out := prepareDescs p s (data ++ [release])
    if out.1 ≠ .success then
      let undone := rollback p out.2.1 out.2.2
      some (if undone.1 ≠ .success then undone.1 else out.1, unlock undone.2 p, [])
    else
      let shut := sealGroup out.2.1 release.releaseGroup
      let s := shut.2
      if shut.1 ≠ .success then some (shut.1, unlock (rollback p s out.2.2).2 p, [])
      else
        let last := (s.peers p).opSeq
        let signal := if streamSyncReady then some last else none
        some (.success, store c s p out.2.2 (if streamSyncReady then none else some last) signal .free,
          out.2.2.map fun d => .published p d.toSubmission signal)
  | .admitted (.ipcGet d) =>
    let out := prepareDescs p s [d]
    if out.1 ≠ .success then some (out.1, unlock out.2.1 p, [])
    else
      some (.success, store c out.2.1 p out.2.2 none none (.arming (out.2.1.peers p).pi),
        out.2.2.map fun d => .published p d.toSubmission none)
  | _ => none

/-- The end of the IPC GET's critical section: `ipcStatus` is the result of its submission. -/
def arm (c : Config n) (s : Proxy n) (p : Fin n) (ipcStatus : Result) : Option (Proxy n) :=
  let peer := s.peers p
  match peer.lock with
  | .arming idx =>
    let d := peer.slots (c.slot idx)
    some (s.setPeer p { peer with
      slots := Function.update peer.slots (c.slot idx) { d with ipcStatus := ipcStatus, eventArmed := true }
      lock := .free })
  | _ => none

/-- A ready signal fires on its stream (`flagcxRmaReadyHostFunc`, `streamWriteValue64`). -/
def signal (s : Proxy n) (p : Fin n) (k : Nat) : Option (Proxy n × List (Note n)) :=
  let peer := s.peers p
  match peer.signals[k]? with
  | none => none
  | some seq => some (s.setPeer p { peer with readySeq := seq, signals := peer.signals.eraseIdx k }, [.fired p seq])

/-! ## Completion -/

def publishScoreboard (s : Proxy n) (p : Fin n) (completed : UInt64) : Proxy n :=
  let board := s.fabric.boards p
  let peer := s.peers p
  let s :=
    if 0 < board.nextSequence then
      let doneSequence := board.nextSequence - 1
      s.setPeer p { peer with doneSeq := if peer.doneSeq < doneSequence then doneSequence else peer.doneSeq }
    else s
  let s := { s with completionCount := s.completionCount + completed }
  if board.firstError ≠ .success then s.recordPendingError else s

def completeDesc (s : Proxy n) (p : Fin n) (d : Submission) (result : Result) : Proxy n × List (Note n) :=
  let tracked := s.fabric.call (.completion p d.submitContext result)
  let s := { s with fabric := tracked.2 }
  let s := if tracked.1 ≠ .success then s.recordPendingError else s
  let s := publishScoreboard s p (if result = .success ∧ d.completesApiOperation then 1 else 0)
  (if result ≠ .success then s.recordPendingError else s, [.completed p d result tracked.1])

end FlagCX.Rma
