import FlagCX.Lib.Guarded
import FlagCX.Rma.Proxy

/-!
# The progress thread of the RMA proxy (`flagcx_hetero.cc`)

`flagcxRmaProxyProgress` as a thread: one step is one iteration of one of its loops, so that producers, ready signals and
waiters take their steps in between. What the adaptors answer in an iteration is an argument of the step (`Answers`).

* `pollEntry`, `progressGetVisibilityDomain`, `visibleEntry`, `pruneGetVisibilityDomains` : the parts of
  `flagcxRmaProxyPollNonPersistCompletion`.
* `ringEntry` : an iteration of `flagcxRmaProxyPollNonPersistDesc`; `drainEntry` : one of `flagcxRmaProxyDrainRing`.
* `progress`  : the thread; `step` : the whole proxy, with its log of notes (`Run`).
-/

namespace FlagCX.Rma

open Net Lib Function List
open KernelProxy (Domain CompletionStage)

variable {n : Nat}

/-- What the progress thread is answered by its device, by the tests of requests and flushes, the posts, the query of an event
and the worker. A request that is not `NULL` is given as `true`. -/
structure Answers where
  deviceSet : Bool
  test : Result
  testDone : Bool
  flushTest : Result
  flushTestDone : Bool
  flushPost : Result
  flushRequest : Option Nat
  event : Result
  sendComm : Bool
  stopping : Bool
  post : Result
  request : Bool
  batchPost : Result
  posted : Int
  requests : Nat → Bool

/-! ## GET visibility -/

/-- `flagcxRmaProxyFindGet`. -/
def findGet (l : List Desc) (domainIndex getSequence : Nat) : Option Desc :=
  l.find? fun d => d.getVisibilityDomain = some domainIndex ∧ d.getSequence = getSequence

/-- `covered->completionResult = result`, on the descriptor that `flagcxRmaProxyFindGet` finds, if it has no error yet. -/
def failGet (domainIndex : Nat) (result : Result) : List Desc → Nat → List Desc
  | [], _ => []
  | d :: ds, getSequence =>
    if d.getVisibilityDomain = some domainIndex ∧ d.getSequence = getSequence then
      (if d.completionResult = .success then { d with completionResult := result } else d) :: ds
    else d :: failGet domainIndex result ds getSequence

def failCovered (l : List Desc) (domainIndex previousVisible visible : Nat) (result : Result) : List Desc :=
  (range' (previousVisible + 1) (visible - previousVisible)).foldl (failGet domainIndex result) l

/-- The loop that extends the contiguous prefix of GETs whose data is complete. `fuel` is how many are left. -/
def completedPrefix (l : List Desc) (domainIndex : Nat) : Nat → Nat → Nat
  | 0, completed => completed
  | fuel + 1, completed =>
    match findGet l domainIndex (completed + 1) with
    | none => completed
    | some next => if next.getDataComplete then completedPrefix l domainIndex fuel (completed + 1) else completed

def flushRange (l : List Desc) (domainIndex visible targetLimit : Nat) : Option Desc :=
  (range' (visible + 1) (targetLimit - visible)).foldl (fun range getSequence =>
    match findGet l domainIndex getSequence with
    | some candidate => if candidate.completionResult = .success then some candidate else range
    | none => range) none

/-- A domain with the requests of its peer, the error flag and the notes, on which
`flagcxRmaProxyProgressGetVisibilityDomain` works. -/
structure Shore (n : Nat) where
  domain : Domain
  inProgress : List Desc
  pendingError : Bool
  notes : List (Note n)

/-- `flagcxNetGetVisibilityCompleteFlush`, and the loop over what a failed flush covers. -/
def endFlush (p : Fin n) (domainIndex : Nat) (result : Result) (s : Shore n) : Shore n :=
  let previousVisible := s.domain.visibleGetSequence
  let note : Note n := .flushEnded p domainIndex s.domain.orderingKey s.domain.flushTargetGetSequence result
  match s.domain.completeFlush result with
  | .ok domain =>
    if result ≠ .success then
      { domain := domain
        inProgress := failCovered s.inProgress domainIndex previousVisible domain.visibleGetSequence result
        pendingError := true, notes := s.notes ++ [note] }
    else { s with domain := domain, notes := s.notes ++ [note] }
  | .error _ =>
    -- the refusal is the result, and nothing has become visible
    { s with pendingError := true, notes := s.notes ++ [note] }

/-- The first part of `flagcxRmaProxyProgressGetVisibilityDomain`: test the outstanding flush. -/
def testFlush (p : Fin n) (domainIndex : Nat) (ans : Answers) (s : Shore n) : Shore n :=
  if s.domain.flushRequest ≠ none ∧ (ans.flushTest ≠ .success ∨ ans.flushTestDone) then
    endFlush p domainIndex ans.flushTest s
  else s

def extendData (domainIndex : Nat) (s : Shore n) : Shore n :=
  let completed := completedPrefix s.inProgress domainIndex
    (s.domain.issuedGetSequence - s.domain.dataCompletedGetSequence) s.domain.dataCompletedGetSequence
  if completed ≠ s.domain.dataCompletedGetSequence then
    match s.domain.advanceData completed with
    | .ok domain => { s with domain := domain }
    | .error _ => { s with pendingError := true }
  else s

def postFlush (p : Fin n) (domainIndex : Nat) (ans : Answers) (s : Shore n) : Shore n :=
  if s.domain.flushRequest ≠ none ∨ s.domain.dataCompletedGetSequence ≤ s.domain.visibleGetSequence then s
  else
    let retryFlush := decide (s.domain.visibleGetSequence < s.domain.flushTargetGetSequence)
    let targetLimit := if retryFlush then s.domain.flushTargetGetSequence else s.domain.dataCompletedGetSequence
    match flushRange s.inProgress domainIndex s.domain.visibleGetSequence targetLimit with
    | none =>
      match s.domain.advanceVisible s.domain.dataCompletedGetSequence with
      | .ok domain => { s with domain := domain }
      | .error _ => { s with pendingError := true }
    | some _ =>
      match (if retryFlush then .ok s.domain else s.domain.beginFlush) with
      | .error _ => { s with pendingError := true }
      | .ok domain =>
        let note : Note n := .flushPosted p domainIndex domain.orderingKey domain.flushTargetGetSequence ans.flushPost
          ans.flushRequest.isSome
        if ans.flushPost = .inProgress then
          -- the target stays for the next pass
          { s with domain := { domain with flushRequest := none }, notes := s.notes ++ [note] }
        else
          let s := { s with domain := { domain with flushRequest := ans.flushRequest }, notes := s.notes ++ [note] }
          if ans.flushPost = .success ∧ ans.flushRequest ≠ none then s
          else endFlush p domainIndex ans.flushPost s

def progressGetVisibilityDomain (s : Proxy n) (p : Fin n) (domainIndex : Nat) (ans : Answers) : Proxy n × List (Note n) :=
  let peer := s.peers p
  let domain := peer.domains domainIndex
  if domain.inUse = false ∨ domain.peer ≠ p then (s, [])
  else
    let out := postFlush p domainIndex ans
      (extendData domainIndex (testFlush p domainIndex ans ⟨domain, peer.inProgress, s.pendingError, []⟩))
    ({ s.setPeer p { peer with
        domains := update peer.domains domainIndex out.domain, inProgress := out.inProgress } with
      pendingError := out.pendingError }, out.notes)

/-- The domain is in use by a request in progress, by a flush, or by GETs that are not yet visible. -/
def keepsDomain (peer : Peer) (index : Nat) : Bool :=
  peer.inProgress.any (fun d => d.getVisibilityDomain = some index) || (peer.domains index).flushRequest.isSome ||
    (peer.domains index).issuedGetSequence != (peer.domains index).visibleGetSequence

/-- `flagcxRmaProxyPruneGetVisibilityDomains`. -/
def pruneGetVisibilityDomains (peer : Peer) : Peer :=
  { peer with
    domains := fun i =>
      if i ∈ peer.active ∧ keepsDomain peer i = false then { Domain.unused with peer := -1 } else peer.domains i
    active := peer.active.filter (keepsDomain peer) }

/-- `flagcxRmaProxyGetVisibilityDomain`, the peer with the domain and its index. -/
def getVisibilityDomain (c : Config n) (peer : Peer) (p : Fin n) (orderingKey : UInt64) : Option (Peer × Nat) :=
  match peer.active.find? fun i => (peer.domains i).peer = p ∧ (peer.domains i).orderingKey = orderingKey with
  | some index => some (peer, index)
  | none =>
    if c.queueSize.toNat ≤ peer.active.length then none
    else
      match (range c.queueSize.toNat).find? fun i => (peer.domains i).inUse = false with
      | none => none
      | some freeIndex =>
        match Domain.init p orderingKey with
        | .error _ => none
        | .ok domain =>
          some ({ peer with
            domains := update peer.domains freeIndex domain, active := peer.active ++ [freeIndex] }, freeIndex)

/-- `flagcxRmaProxyTrackGetVisibility`, with the peer and the descriptor it leaves. -/
def trackGetVisibility (c : Config n) (peer : Peer) (p : Fin n) (d : Desc) : Result × Peer × Desc :=
  if d.type ≠ .get ∨ d.size = 0 ∨ c.requiresFlush d.dstMrIdx = false then (.success, peer, d)
  else
    match getVisibilityDomain c peer p d.orderingKey with
    | none => (.internalError, peer, d)
    | some (peer, index) =>
      match (peer.domains index).issue with
      | .error result => (result, peer, d)
      | .ok (domain, getSequence) =>
        (.success, { peer with domains := update peer.domains index domain },
          { d with getSequence := getSequence, getVisibilityDomain := some index })

/-! ## Requests in progress -/

/-- A request leaves the in-progress queue and is completed. -/
def retire (s : Proxy n) (p : Fin n) (i : Nat) (d : Desc) (result : Result) : Proxy n × List (Note n) :=
  let peer := s.peers p
  completeDesc (s.setPeer p { peer with inProgress := peer.inProgress.eraseIdx i, inFlight := peer.inFlight - 1 }) p
    d.toSubmission result

/-- Entry `i` of the first walk of `flagcxRmaProxyPollNonPersistCompletion`. -/
def pollEntry (s : Proxy n) (p : Fin n) (i : Nat) (d : Desc) (ans : Answers) : Proxy n × List (Note n) :=
  let next : Pc n := .poll p (i + 1)
  if d.completionStage = .flushPending then ({ s with pc := next }, [])
  else
    let failed := d.request && ans.test != .success
    let done := !d.request || failed || ans.testDone
    let completionResult := if failed then ans.test else d.completionResult
    if !done then ({ s with pc := next }, [])
    else if d.getSequence ≠ 0 then
      -- the descriptor waits until its ordering domain has made it visible
      let peer := s.peers p
      let waiting := { d with
        request := false, completionResult := completionResult, getDataComplete := true,
        completionStage := .flushPending }
      let s := s.setPeer p { peer with inProgress := peer.inProgress.set i waiting }
      ({ s with pc := next, pendingError := s.pendingError || completionResult != .success },
        [.dataDone p d.toSubmission (d.getVisibilityDomain.getD 0) d.getSequence completionResult])
    else retire s p i d completionResult

/-- Entry `i` of the second walk of `flagcxRmaProxyPollNonPersistCompletion`. -/
def visibleEntry (s : Proxy n) (p : Fin n) (i : Nat) (d : Desc) : Proxy n × List (Note n) :=
  let next : Pc n := .visible p (i + 1)
  match d.getVisibilityDomain with
  | none => ({ s with pc := next }, [])
  | some index =>
    if d.completionStage ≠ .flushPending ∨ ((s.peers p).domains index).visibleGetSequence < d.getSequence then
      ({ s with pc := next }, [])
    else retire s p i d d.completionResult

/-! ## The ring -/

/-- The next peer of a pass, or its end. -/
def Pc.after (p : Fin n) : Pc n := if h : p.val + 1 < n then .poll ⟨p.val + 1, h⟩ 0 else .finish

/-- The consumer index passes the slots of `ds`, which join the in-progress queue. -/
def take (s : Proxy n) (p : Fin n) (ds : List Desc) : Proxy n :=
  let peer := s.peers p
  s.setPeer p { peer with
    ci := peer.ci + UInt32.ofNat ds.length, inProgress := peer.inProgress ++ ds
    inFlight := peer.inFlight + UInt32.ofNat ds.length }

/-- The consumer index passes a slot whose descriptor is completed at once. -/
def settle (s : Proxy n) (p : Fin n) (d : Desc) (result : Result) : Proxy n × List (Note n) :=
  let peer := s.peers p
  let out := completeDesc (s.setPeer p { peer with ci := peer.ci + 1 }) p d.toSubmission result
  (out.1, .consumed p d.toSubmission :: out.2)

/-- `flagcxRmaProxyPostOp`: the proxy with the staging slot written, the result, and whether a request was returned. -/
def postOp (c : Config n) (s : Proxy n) (p : Fin n) (d : Desc) (ans : Answers) : Proxy n × Result × Bool × List (Note n) :=
  match d.netCall c.hasStaging with
  | .error result => (s, result, false, [])
  | .ok call =>
    let peer := s.peers p
    (s.setPeer p { peer with staging := if d.type = .putValue then d.putValue else peer.staging }, ans.post, ans.request,
      [.handed p d.toSubmission call ans.post])

def batchPostResultIsFatal (result : Result) (posted count : Int) : Bool :=
  if posted < 0 ∨ count < posted then true
  else if result = .success then posted != count
  else result != .inProgress

/-- `flagcxParamRmaBatchMax()`, clamped. -/
def Config.clampedBatchMax (c : Config n) : Nat :=
  (if c.batchMax ≤ 0 then 1 else if 256 < c.batchMax then 256 else c.batchMax).toNat

def joins (head cur : Desc) (readySeq : UInt64) : Bool :=
  decide (cur.opSeq ≤ readySeq) && decide (cur.type = .put) && cur.srcMrIdx == head.srcMrIdx &&
    cur.dstMrIdx == head.dstMrIdx && cur.orderingKey == head.orderingKey && cur.submitFlags == head.submitFlags &&
    cur.groupId == head.groupId

def collectBatch (c : Config n) (peer : Peer) (head : Desc) (readySeq : UInt64) : List Desc :=
  let ringAvailable := (peer.pi - peer.ci).toNat
  let flightAvailable := (c.queueSize - peer.inFlight).toNat
  let batchLimit := min (min ringAvailable flightAvailable) c.clampedBatchMax
  ((range batchLimit).map fun k => peer.slots (c.slot (peer.ci + UInt32.ofNat k))).takeWhile (joins head · readySeq)

/-- The branch of `flagcxRmaProxyPollNonPersistDesc` that submits a batch. -/
def postBatch (s : Proxy n) (p : Fin n) (descs : List Desc) (ans : Answers) (sendComm : Bool) : Proxy n × List (Note n) :=
  let valid := 0 ≤ ans.posted ∧ ans.posted ≤ descs.length
  let posted := if valid then ans.posted.toNat else 0
  let result := if valid then ans.batchPost else .internalError
  let fatal := batchPostResultIsFatal result posted descs.length
  let handed := descs.map fun d =>
    Note.handed p d.toSubmission (.iput d.srcOff d.dstOff d.size (some (d.srcMrIdx, d.dstMrIdx))) result
  if posted = 0 then
    ({ s with pc := .after p, pendingError := s.pendingError || fatal }, handed)
  else
    let accepted := (descs.take posted).mapIdx fun i d =>
      { d with request := ans.requests i, completionResult := .success }
    let s := take s p accepted
    ({ s with pc := if fatal then .after p else .ring p sendComm, pendingError := s.pendingError || fatal },
      handed ++ accepted.map fun d => .consumed p d.toSubmission)

def takePosted (c : Config n) (s : Proxy n) (p : Fin n) (d : Desc) (request : Bool) : Proxy n :=
  let tracked := trackGetVisibility c (s.peers p) p { d with request := request, completionResult := .success }
  let s := s.setPeer p tracked.2.1
  if tracked.1 ≠ .success then take s.recordPendingError p [{ tracked.2.2 with completionResult := tracked.1 }]
  else take s p [tracked.2.2]

/-- The branch of `flagcxRmaProxyPollNonPersistDesc` that submits one descriptor. -/
def postOne (c : Config n) (s : Proxy n) (p : Fin n) (d : Desc) (ans : Answers) (sendComm : Bool) :
    Proxy n × List (Note n) :=
  let out := postOp c s p d ans
  let s := out.1
  let res := out.2.1
  if res = .inProgress then ({ s with pc := .after p }, out.2.2.2)
  else if res ≠ .success then
    let s := take s p [{ d with request := false, completionResult := res }]
    ({ s.recordPendingError with pc := .after p }, out.2.2.2 ++ [.consumed p d.toSubmission])
  else
    ({ takePosted c s p d out.2.2.1 with pc := .ring p sendComm }, out.2.2.2 ++ [.consumed p d.toSubmission])

def submitHead (c : Config n) (s : Proxy n) (p : Fin n) (sendComm : Bool) (d : Desc) (ans : Answers) :
    Proxy n × List (Note n) :=
  let peer := s.peers p
  let readySeq := if d.streamEvent then uint64Max else peer.readySeq
  -- the stream has not signalled that the source is ready
  if readySeq < d.opSeq then ({ s with pc := .after p }, [])
  else if !sendComm then ({ s with pc := .after p }, [])
  else if d.type = .put ∧ c.batching ∧ 1 < (collectBatch c peer d readySeq).length then
    postBatch s p (collectBatch c peer d readySeq) ans sendComm
  else postOne c s p d ans sendComm

def eventGate (c : Config n) (s : Proxy n) (p : Fin n) (sendComm : Bool) (d : Desc) (ans : Answers) :
    Proxy n × List (Note n) :=
  if !d.streamEvent then submitHead c s p sendComm d ans
  else if !d.eventArmed then ({ s with pc := .after p }, [])
  else
    let eventResult := if d.ipcStatus = .success then ans.event else d.ipcStatus
    if eventResult = .inProgress then ({ s with pc := .after p }, [])
    else if d.type = .ipcGet then
      if (s.peers p).doneSeq < d.opSeq - 1 then ({ s with pc := .after p }, [])
      else
        let out := settle s p d eventResult
        ({ out.1 with pc := if eventResult ≠ .success then .after p else .ring p sendComm }, out.2)
    else if eventResult ≠ .success then
      let out := settle s p d eventResult
      ({ out.1 with pc := .after p }, out.2)
    else submitHead c s p sendComm d ans

/-- `flagcxNetReleaseGroupTest` on the group of a descriptor. -/
def releaseVerdict (f : Fabric (Fin n)) : Option Nat → GroupVerdict
  | none => ⟨.invalidArgument, false, false⟩
  | some group => releaseGroupTest (f.groups group)

/-- An iteration of the loop of `flagcxRmaProxyPollNonPersistDesc`. -/
def ringEntry (c : Config n) (s : Proxy n) (p : Fin n) (sendComm : Bool) (ans : Answers) : Proxy n × List (Note n) :=
  let peer := s.peers p
  if circularBufEmpty peer ∨ c.queueSize ≤ peer.inFlight then ({ s with pc := .after p }, [])
  else
    let d := peer.slots (c.slot peer.ci)
    if d.type = .release then
      let verdict := releaseVerdict s.fabric d.releaseGroup
      if !verdict.done then ({ s with pc := .after p }, [])
      else if verdict.result ≠ .success ∨ !verdict.releaseAllowed then
        let refused := if verdict.result = .success then Result.internalError else verdict.result
        ({ take s p [{ d with completionResult := refused }] with pc := .ring p sendComm },
          [.consumed p d.toSubmission])
      else eventGate c s p sendComm d ans
    else eventGate c s p sendComm d ans

/-- An iteration of the loop of `flagcxRmaProxyDrainRing`, under the producer lock. -/
def drainEntry (c : Config n) (s : Proxy n) (p : Fin n) : Option (Proxy n × List (Note n)) :=
  let peer := s.peers p
  if peer.lock ≠ .free then none
  else if circularBufEmpty peer then some ({ s with pc := .after p }, [])
  else some (settle s p (peer.slots (c.slot peer.ci)) .remoteError)

/-- The part of a pass between the two polls of a peer: the error check and the look at the head of the ring. -/
def checkPeer (c : Config n) (s : Proxy n) (p : Fin n) (ans : Answers) : Proxy n :=
  let peer := s.peers p
  let hasHead := peer.ci ≠ peer.pi
  let ipcHead := (peer.slots (c.slot peer.ci)).type = .ipcGet
  if s.pendingError || s.rmaError then { s with pc := .drain p }
  else if hasHead ∧ (ans.sendComm ∨ ipcHead) then { s with pc := .ring p ans.sendComm }
  else if hasHead then
    { s.recordPendingError with pc := if ans.stopping then .drain p else .after p }
  else { s with pc := .after p }

/-- The end of a pass: `flagcxRmaProxyAllNativeRequestsRetired` and `flagcxRmaProxyPublishError`. -/
def finishPass (s : Proxy n) : Proxy n :=
  if s.pendingError ∧ ∀ p, (s.peers p).inFlight = 0 then { s.publishError with pc := .idle } else { s with pc := .idle }

def progress (c : Config n) (s : Proxy n) (ans : Answers) : Option (Proxy n × List (Note n)) :=
  match s.pc with
  | .start =>
    -- `flagcxRmaWorkerInit`
    some (if ans.deviceSet then ({ s with pc := .idle }, []) else ({ s.publishError with pc := .idle }, []))
  | .idle => some ({ s with pc := if h : 0 < n then .poll ⟨0, h⟩ 0 else .finish }, [])
  | .poll p i =>
    match (s.peers p).inProgress[i]? with
    | none => some ({ s with pc := .domains p 0 }, [])
    | some d => some (pollEntry s p i d ans)
  | .domains p i =>
    match (s.peers p).active[i]? with
    | none => some ({ s with pc := .visible p 0 }, [])
    | some index =>
      let out := progressGetVisibilityDomain s p index ans
      some ({ out.1 with pc := .domains p (i + 1) }, out.2)
  | .visible p i =>
    match (s.peers p).inProgress[i]? with
    | none => some ({ s.setPeer p (pruneGetVisibilityDomains (s.peers p)) with pc := .check p }, [])
    | some d => some (visibleEntry s p i d)
  | .check p => some (checkPeer c s p ans, [])
  | .drain p => drainEntry c s p
  | .ring p sendComm => some (ringEntry c s p sendComm ans)
  | .finish => some (finishPass s, [])

/-! ## The proxy -/

/-- A step of one of the parties: a producer, a ready signal, the quiescing of the communicator, the progress thread, or the
network, which reads the staging slot for the put-value at place `i` of the in-progress queue. -/
inductive Action (n : Nat) where
  | admitCall (p : Fin n) (call : ApiCall) (groupId : UInt64)
  | publish (p : Fin n)
  | arm (p : Fin n) (ipcStatus : Result)
  | signal (p : Fin n) (k : Nat)
  | quiesce
  | progress (ans : Answers)
  | dmaRead (p : Fin n) (i : Nat)

/-- The network reads the staging slot between the post of a put-value and its completion. -/
def dmaRead (s : Proxy n) (p : Fin n) (i : Nat) : Option (Proxy n × List (Note n)) :=
  match (s.peers p).inProgress[i]? with
  | none => none
  | some d =>
    if d.type = .putValue ∧ d.request then some (s, [.delivered p d.toSubmission (s.peers p).staging]) else none

def act (c : Config n) (s : Proxy n) : Action n → Option (Proxy n × List (Note n))
  | .admitCall p call groupId => (admitCall c s p call groupId).map (·, [])
  | .publish p => (publish c s p).map (·.2)
  | .arm p ipcStatus => (arm c s p ipcStatus).map (·, [])
  | .signal p k => signal s p k
  | .quiesce => some ({ s with quiesced := true }, [])
  | .progress ans => progress c s ans
  | .dmaRead p i => dmaRead s p i

/-- The proxy and what was observed so far, first things first. -/
structure Run (n : Nat) where
  proxy : Proxy n
  log : List (Note n)

def step (c : Config n) (r : Run n) (a : Action n) : Option (Run n) :=
  (act c r.proxy a).map fun out => ⟨out.1, r.log ++ out.2⟩

/-- The runs from the start, all of whose steps meet the guard. -/
def Reachable (c : Config n) (ok : Run n → Action n → Prop) (r : Run n) : Prop :=
  ∃ s groups, Proxy.init c groups = .ok s ∧ Reach (step c) ok ⟨s, []⟩ r

end FlagCX.Rma
