import FlagCX.Net.Transport

/-!
# The kernel-proxy transport (`kernel_proxy_transport.cc`)

The request slots of one kernel context and the GET visibility domains they are numbered in, with the watermark helpers
of `net_transport.cc`.

* One progress thread owns the transport, so a call is one step. The two callbacks of `flagcxKernelProxyProgressRequest`
  are non-null; what they answer is an argument of the call, and the callbacks made are part of its outcome.
* GET sequences are natural numbers: `flagcxNetGetVisibilityIssue` refuses before they could wrap.
* Pointers are `Option Nat`, `UINT32_MAX` as a domain index is `none`. A slot argument is below the capacity.
* The scoreboard is the one of `FlagCX.Net.Transport`, in a `Tracker` because its calls take the group store; the kernel
  proxy submits to no group. The staging slots are left out: a request only carries its number.
-/

namespace FlagCX.KernelProxy

open Net List

/-! ## Visibility domains -/

/-- `flagcxNetGetVisibilityDomain`. -/
structure Domain where
  orderingKey : UInt64
  issuedGetSequence : Nat
  dataCompletedGetSequence : Nat
  flushTargetGetSequence : Nat
  visibleGetSequence : Nat
  flushRequest : Option Nat
  flushResult : Result
  peer : Int
  inUse : Bool
  deriving DecidableEq

namespace Domain

def unused : Domain :=
  { orderingKey := 0, issuedGetSequence := 0, dataCompletedGetSequence := 0, flushTargetGetSequence := 0,
    visibleGetSequence := 0, flushRequest := none, flushResult := .success, peer := 0, inUse := false }

/-- `flagcxNetGetVisibilityDomainInit`. -/
def init (peer : Int) (orderingKey : UInt64) : Except Result Domain :=
  if peer < 0 then .error .invalidArgument
  else .ok { unused with orderingKey := orderingKey, peer := peer, inUse := true }

/-- `flagcxNetGetVisibilityIssue`; the second component is `*getSequence`. -/
def issue (d : Domain) : Except Result (Domain × Nat) :=
  if d.inUse = false ∨ 2 ^ 64 - 2 ≤ d.issuedGetSequence then .error .invalidArgument
  else .ok ({ d with issuedGetSequence := d.issuedGetSequence + 1 }, d.issuedGetSequence + 1)

/-- `flagcxNetGetVisibilityRemoveIssue`. -/
def removeIssue (d : Domain) (getSequence : Nat) : Except Result Domain :=
  if d.inUse = false ∨ getSequence = 0 ∨ d.issuedGetSequence < getSequence then .error .invalidArgument
  else .ok { d with
    issuedGetSequence := d.issuedGetSequence - 1
    dataCompletedGetSequence :=
      if getSequence ≤ d.dataCompletedGetSequence then d.dataCompletedGetSequence - 1 else d.dataCompletedGetSequence
    flushTargetGetSequence :=
      if getSequence ≤ d.flushTargetGetSequence then d.flushTargetGetSequence - 1 else d.flushTargetGetSequence
    visibleGetSequence :=
      if getSequence ≤ d.visibleGetSequence then d.visibleGetSequence - 1 else d.visibleGetSequence }

/-- `flagcxNetGetVisibilityAdvanceData`. -/
def advanceData (d : Domain) (dataCompleted : Nat) : Except Result Domain :=
  if d.inUse = false ∨ dataCompleted < d.dataCompletedGetSequence ∨ d.issuedGetSequence < dataCompleted then
    .error .invalidArgument
  else .ok { d with dataCompletedGetSequence := dataCompleted }

/-- `flagcxNetGetVisibilityBeginFlush`. -/
def beginFlush (d : Domain) : Except Result Domain :=
  if d.inUse = false ∨ d.flushRequest ≠ none ∨ d.flushTargetGetSequence ≠ d.visibleGetSequence ∨
      d.dataCompletedGetSequence ≤ d.visibleGetSequence then
    .error .invalidArgument
  else .ok { d with flushTargetGetSequence := d.dataCompletedGetSequence }

/-- `flagcxNetGetVisibilityAdvanceVisible`. -/
def advanceVisible (d : Domain) (visible : Nat) : Except Result Domain :=
  if d.inUse = false ∨ d.flushRequest ≠ none ∨ d.flushTargetGetSequence ≠ d.visibleGetSequence ∨
      visible < d.visibleGetSequence ∨ d.dataCompletedGetSequence < visible then
    .error .invalidArgument
  else .ok { d with visibleGetSequence := visible, flushTargetGetSequence := visible, flushResult := .success }

/-- `flagcxNetGetVisibilityCompleteFlush`. -/
def completeFlush (d : Domain) (result : Result) : Except Result Domain :=
  if d.inUse = false ∨ d.flushTargetGetSequence < d.visibleGetSequence ∨
      d.dataCompletedGetSequence < d.flushTargetGetSequence ∨
      (d.flushTargetGetSequence = d.visibleGetSequence ∧ d.flushRequest = none) then
    .error .invalidArgument
  else .ok { d with flushRequest := none, flushResult := result, visibleGetSequence := d.flushTargetGetSequence }

end Domain

/-! ## Requests -/

inductive RequestState where
  | free
  | reserved
  | posted
  deriving DecidableEq, Repr

inductive CompletionStage where
  | dataPosted
  | flushPending
  deriving DecidableEq, Repr

/-- `flagcxKernelProxyRequest`. -/
structure Request where
  request : Option Nat
  flushRecvComm : Option Nat
  submit : SubmitContext
  completionResult : Result
  dstOff : Nat
  getSequence : Nat
  size : Nat
  peer : Int
  dstMrIdx : Int
  stagingSlot : Int
  state : RequestState
  getVisibilityDomain : Option Nat
  requiresGetFlush : Bool
  getDataComplete : Bool
  completionStage : CompletionStage
  deriving DecidableEq

/-- `flagcxKernelProxyRequestReset`. -/
def requestReset : Request :=
  { request := none, flushRecvComm := none, submit := ⟨0, 0, 0, 0, 0⟩, completionResult := .success, dstOff := 0,
    getSequence := 0, size := 0, peer := -1, dstMrIdx := -1, stagingSlot := -1, state := .free,
    getVisibilityDomain := none, requiresGetFlush := false, getDataComplete := false, completionStage := .dataPosted }

/-- `flagcxKernelProxyTransport`. -/
structure Transport where
  scoreboard : Tracker
  requests : Nat → Request
  domains : Nat → Domain
  capacity : Nat
  nativeInflight : Nat
  nextSequence : UInt64
  generation : UInt64
  orderingKey : UInt64

namespace Transport

/-- `flagcxKernelProxyTransportInit`, for allocations that succeed. -/
def init (capacity : UInt32) (generation orderingKey : UInt64) (groups : Nat → ReleaseGroup) : Except Result Transport :=
  if capacity = 0 ∨ generation = 0 then .error .invalidArgument
  else do
    let scoreboard ← CompletionScoreboard.init capacity generation 1
    return {
      scoreboard := ⟨scoreboard, groups⟩, requests := fun _ => requestReset, domains := fun _ => Domain.unused,
      capacity := capacity.toNat, nativeInflight := 0, nextSequence := 1, generation := generation,
      orderingKey := orderingKey }

def setRequest (t : Transport) (slot : Nat) (r : Request) : Transport :=
  { t with requests := Function.update t.requests slot r }

def setDomain (t : Transport) (d : Nat) (domain : Domain) : Transport :=
  { t with domains := Function.update t.domains d domain }

def firstSlot (t : Transport) (P : Request → Bool) : Option Nat := (range t.capacity).find? fun i => P (t.requests i)

def lastSlot (t : Transport) (P : Request → Bool) : Option Nat := (range t.capacity).reverse.find? fun i => P (t.requests i)

/-! ## Posting -/

/-- `flagcxKernelProxyTrackNext`. -/
def trackNext (t : Transport) (flags : UInt32) : Result × Transport :=
  let context : SubmitContext := ⟨t.orderingKey, 0, t.generation, t.nextSequence, flags⟩
  let out := trackSubmit t.scoreboard context none
  if out.1 ≠ .success then (out.1, { t with scoreboard := out.2 })
  else (.success, { t with scoreboard := out.2, nextSequence := t.nextSequence + 1 })

/-- `flagcxKernelProxyReserveRequest`; the third component is `*slot`. -/
def reserveRequest (t : Transport) (submit : SubmitContext) (peer stagingSlot : Int) : Result × Transport × Option Nat :=
  if peer < 0 then (.invalidArgument, t, none)
  else
    match t.firstSlot fun r => r.state = .free with
    | none => (.inProgress, t, none)
    | some i =>
      (.success, t.setRequest i { t.requests i with
        submit := submit, peer := peer, stagingSlot := stagingSlot, state := .reserved }, some i)

/-- `flagcxKernelProxyPublishRequest`, on a non-null request. -/
def publishRequest (t : Transport) (slot request : Nat) (completionResult : Result) : Result × Transport :=
  let entry := t.requests slot
  if entry.state ≠ .reserved then (.invalidArgument, t)
  else (.success, { t.setRequest slot { entry with
    request := some request, completionResult := completionResult, state := .posted } with
      nativeInflight := t.nativeInflight + 1 })

def servesPeer (t : Transport) (peer : Int) (domain : Domain) : Bool :=
  domain.inUse && domain.peer == peer && domain.orderingKey == t.orderingKey

/-- Some request in use belongs to the domain: `getVisibilityDomainReferenced`. -/
def referenced (t : Transport) (d : Nat) : Bool :=
  (range t.capacity).any fun i => (t.requests i).state != .free && (t.requests i).getVisibilityDomain == some d

/-- The domain that `flagcxKernelProxyRequireGetFlush` takes for a peer: the one that serves it, else one that is not in
use, else one whose GETs are all visible and that no request refers to. -/
def pickDomain (t : Transport) (peer : Int) : Option Nat :=
  match (range t.capacity).find? fun d => t.servesPeer peer (t.domains d) with
  | some d => some d
  | none =>
    match (range t.capacity).find? fun d => !(t.domains d).inUse with
    | some d => some d
    | none => (range t.capacity).find? fun d =>
        (t.domains d).issuedGetSequence == (t.domains d).visibleGetSequence &&
          (t.domains d).flushRequest.isNone && !t.referenced d

def readyDomain (t : Transport) (peer : Int) (d : Nat) : Except Result Domain :=
  if t.servesPeer peer (t.domains d) then .ok (t.domains d) else Domain.init peer t.orderingKey

/-- `flagcxKernelProxyRequireGetFlush`, on a non-null communicator. -/
def requireGetFlush (t : Transport) (slot : Nat) (dstMrIdx : Int) (dstOff size flushRecvComm : Nat) : Result × Transport :=
  let entry := t.requests slot
  if dstMrIdx < 0 ∨ size = 0 then (.invalidArgument, t)
  else if entry.state ≠ .reserved then (.invalidArgument, t)
  else
    match t.pickDomain entry.peer with
    | none => (.inProgress, t)
    | some d =>
      match t.readyDomain entry.peer d with
      | .error e => (e, t)
      | .ok domain =>
        match domain.issue with
        | .error e => (e, t.setDomain d domain)
        | .ok (domain, getSequence) =>
          (.success, (t.setDomain d domain).setRequest slot { entry with
            getSequence := getSequence, getVisibilityDomain := some d, dstMrIdx := dstMrIdx, dstOff := dstOff,
            size := size, flushRecvComm := some flushRecvComm, requiresGetFlush := true })

/-- `flagcxKernelProxyPublishGetFlushPending`. -/
def publishGetFlushPending (t : Transport) (slot : Nat) : Result × Transport :=
  let entry := t.requests slot
  if entry.state ≠ .reserved ∨ entry.requiresGetFlush = false then (.invalidArgument, t)
  else (.success, { t.setRequest slot { entry with
    request := none, completionResult := .success, completionStage := .flushPending, getDataComplete := true,
    state := .posted } with nativeInflight := t.nativeInflight + 1 })

/-! ## Progress -/

def postedIn (d : Nat) (r : Request) : Bool := r.state == .posted && r.getVisibilityDomain == some d

end Transport

/-- What a `testRequest` callback answers. -/
structure TestAnswer where
  result : Result
  done : Bool
  deriving DecidableEq

/-- What a `postFlush` callback answers: its result and the request it leaves. -/
structure PostAnswer where
  result : Result
  request : Option Nat
  deriving DecidableEq

/-- The callbacks of one progress call. A flush is posted with the range of one request; `covered` are the slots of the
requests up to the target it was started with. -/
inductive Callback where
  | testData (slot : Nat) (answer : TestAnswer)
  | testFlush (d : Nat) (answer : TestAnswer)
  | postFlush (d range : Nat) (covered : List Nat) (answer : PostAnswer)
  deriving DecidableEq

namespace Transport

def failCovered (t : Transport) (d previousVisible : Nat) (result : Result) : Transport :=
  { t with requests := fun i =>
      if i < t.capacity ∧ postedIn d (t.requests i) ∧ previousVisible < (t.requests i).getSequence ∧
          (t.requests i).getSequence ≤ (t.domains d).visibleGetSequence ∧
          (t.requests i).completionResult = .success then
        { t.requests i with completionResult := result }
      else t.requests i }

/-- A flush is over: `flagcxNetGetVisibilityCompleteFlush`, and the covered requests take its error. -/
def finishFlush (t : Transport) (d : Nat) (result : Result) : Result × Transport :=
  match (t.domains d).completeFlush result with
  | .error e => (e, t)
  | .ok domain =>
    (.success, if result ≠ .success then
        (t.setDomain d domain).failCovered d (t.domains d).visibleGetSequence result
      else t.setDomain d domain)

def testFlush (t : Transport) (d : Nat) (answer : TestAnswer) : Result × Transport × List Callback :=
  if (t.domains d).flushRequest = none then (.success, t, [])
  else if answer.result ≠ .success ∨ answer.done = true then
    let out := t.finishFlush d answer.result
    (out.1, out.2, [.testFlush d answer])
  else (.success, t, [.testFlush d answer])

def completedPrefix (t : Transport) (d : Nat) : Nat → Nat → Nat
  | 0, completed => completed
  | n + 1, completed =>
    match t.firstSlot fun r => postedIn d r && r.getSequence == completed + 1 with
    | none => completed
    | some i => if (t.requests i).getDataComplete then completedPrefix t d n (completed + 1) else completed

/-- The watermark of the data moves over the completed prefix. -/
def advancePrefix (t : Transport) (d : Nat) : Result × Transport :=
  let domain := t.domains d
  let completed := t.completedPrefix d (domain.issuedGetSequence - domain.dataCompletedGetSequence)
    domain.dataCompletedGetSequence
  match domain.advanceData completed with
  | .error e => (e, t)
  | .ok domain => (.success, t.setDomain d domain)

/-- The watermark the next flush covers: that of a flush to be retried, or all completed data. -/
def nextTarget (domain : Domain) : Nat :=
  if domain.visibleGetSequence < domain.flushTargetGetSequence then domain.flushTargetGetSequence
  else domain.dataCompletedGetSequence

def flushRange (t : Transport) (d : Nat) : Option Nat :=
  let domain := t.domains d
  t.lastSlot fun r => postedIn d r && decide (domain.visibleGetSequence < r.getSequence) &&
    decide (r.getSequence ≤ nextTarget domain) && r.completionResult == .success

/-- The slots of the posted requests of the domain up to its flush target. -/
def coveredSlots (t : Transport) (d : Nat) : List Nat :=
  (range t.capacity).filter fun i =>
    postedIn d (t.requests i) && decide ((t.requests i).getSequence ≤ (t.domains d).flushTargetGetSequence)

def postFlush (t : Transport) (d range : Nat) (answer : PostAnswer) : Result × Transport × List Callback :=
  let posted := t.setDomain d { t.domains d with flushRequest := answer.request }
  let calls := [.postFlush d range (t.coveredSlots d) answer]
  if answer.result ≠ .inProgress ∧ (answer.result ≠ .success ∨ answer.request = none) then
    let out := posted.finishFlush d answer.result
    (out.1, out.2, calls)
  else (.success, posted, calls)

def startFlush (t : Transport) (d : Nat) (answer : PostAnswer) : Result × Transport × List Callback :=
  let domain := t.domains d
  if domain.flushRequest = none ∧ domain.visibleGetSequence < domain.dataCompletedGetSequence then
    match t.flushRange d with
    | none =>
      match domain.advanceVisible domain.dataCompletedGetSequence with
      | .error e => (e, t, [])
      | .ok domain => (.success, t.setDomain d domain, [])
    | some range =>
      if domain.visibleGetSequence < domain.flushTargetGetSequence then t.postFlush d range answer
      else
        match domain.beginFlush with
        | .error e => (e, t, [])
        | .ok domain => (t.setDomain d domain).postFlush d range answer
  else (.success, t, [])

/-- The outcome of `flagcxKernelProxyProgressRequest`. -/
structure Progress where
  result : Result
  ready : Bool
  completionResult : Result
  transport : Transport
  calls : List Callback

/-- `flagcxKernelProxyProgressRequest` from the domain of the request on. -/
def progressDomain (t : Transport) (slot : Nat) (flush : TestAnswer) (post : PostAnswer) (calls : List Callback) :
    Progress :=
  let entry := t.requests slot
  match entry.getVisibilityDomain with
  | none => ⟨.internalError, false, entry.completionResult, t, calls⟩
  | some d =>
    if t.capacity ≤ d then ⟨.internalError, false, entry.completionResult, t, calls⟩
    else
      let tested := t.testFlush d flush
      if tested.1 ≠ .success then ⟨tested.1, false, entry.completionResult, tested.2.1, calls ++ tested.2.2⟩
      else
        let advanced := tested.2.1.advancePrefix d
        if advanced.1 ≠ .success then
          ⟨advanced.1, false, entry.completionResult, advanced.2, calls ++ tested.2.2⟩
        else
          let started := advanced.2.startFlush d post
          let calls := calls ++ tested.2.2 ++ started.2.2
          if started.1 ≠ .success then ⟨started.1, false, entry.completionResult, started.2.1, calls⟩
          else
            let t' := started.2.1
            ⟨.success, decide ((t'.requests slot).getSequence ≤ (t'.domains d).visibleGetSequence),
              (t'.requests slot).completionResult, t', calls⟩

/-- `flagcxKernelProxyProgressRequest`. -/
def progressRequest (t : Transport) (slot : Nat) (data flush : TestAnswer) (post : PostAnswer) : Progress :=
  let entry := t.requests slot
  if entry.state ≠ .posted then ⟨.invalidArgument, false, .success, t, []⟩
  else if entry.completionStage = .flushPending then t.progressDomain slot flush post []
  else if entry.request = none then ⟨.invalidArgument, false, entry.completionResult, t, []⟩
  else
    let calls := [.testData slot data]
    let tested : Request := { entry with
      completionResult := if data.result ≠ .success then data.result else entry.completionResult }
    let t := t.setRequest slot tested
    if data.result = .success ∧ data.done = false then ⟨.success, false, tested.completionResult, t, calls⟩
    else if entry.requiresGetFlush = false then ⟨.success, true, tested.completionResult, t, calls⟩
    else
      let t := t.setRequest slot { tested with
        request := none, getDataComplete := true, completionStage := .flushPending }
      if tested.completionResult = .success then ⟨.success, false, tested.completionResult, t, calls⟩
      else t.progressDomain slot flush post calls

/-! ## Removing and completing -/

def renumber (d getSequence : Nat) (r : Request) : Request :=
  if r.state ≠ .free ∧ r.getVisibilityDomain = some d ∧ getSequence < r.getSequence then
    { r with getSequence := r.getSequence - 1 }
  else r

/-- `flagcxKernelProxyRemoveGetVisibilitySequence`. -/
def removeGetVisibilitySequence (t : Transport) (slot : Nat) : Result × Transport :=
  let entry := t.requests slot
  if entry.getSequence = 0 then (.success, t)
  else
    match entry.getVisibilityDomain with
    | none => (.internalError, t)
    | some d =>
      if t.capacity ≤ d then (.internalError, t)
      else if (t.domains d).inUse = false ∨ (t.domains d).issuedGetSequence < entry.getSequence then
        (.internalError, t)
      else
        let renumbered := { t with requests := fun i =>
          if i < t.capacity then renumber d entry.getSequence (t.requests i) else t.requests i }
        match (t.domains d).removeIssue entry.getSequence with
        | .error e => (e, renumbered)
        | .ok domain => (.success, renumbered.setDomain d domain)

/-- `flagcxKernelProxyCancelRequest`. -/
def cancelRequest (t : Transport) (slot : Nat) : Result × Transport :=
  if (t.requests slot).state ≠ .reserved then (.invalidArgument, t)
  else
    let out := t.removeGetVisibilitySequence slot
    if out.1 ≠ .success then out else (.success, out.2.setRequest slot requestReset)

/-- `flagcxKernelProxyAbortRequest`. -/
def abortRequest (t : Transport) (slot : Nat) : Result × Transport :=
  if (t.requests slot).state ≠ .posted ∨ t.nativeInflight = 0 then (.invalidArgument, t)
  else
    let out := t.removeGetVisibilitySequence slot
    if out.1 ≠ .success then out
    else (.success, { out.2.setRequest slot requestReset with nativeInflight := out.2.nativeInflight - 1 })

/-- `flagcxKernelProxyCompleteRequest`. -/
def completeRequest (t : Transport) (slot : Nat) (result : Result) : Result × Transport :=
  let entry := t.requests slot
  if entry.state ≠ .posted ∨ t.nativeInflight = 0 then (.invalidArgument, t)
  else
    let out := trackCompletion t.scoreboard entry.submit result
    if out.1 ≠ .success then (out.1, { t with scoreboard := out.2.2 })
    else (.success, { t.setRequest slot requestReset with
      scoreboard := out.2.2, nativeInflight := t.nativeInflight - 1 })

end Transport

end FlagCX.KernelProxy
