import FlagCX.DeviceFifo.Trigger
import FlagCX.KernelProxy.Transport

/-!
# Posting and polling of the kernel proxy (`proxy.cc`)

`flagcxKernelProxyPost` and `flagcxKernelProxyPoll`, on a transport with the staging slots of its PutValues.

* `Comm`       : what a post reads of the communicator; pointers are `Bool`s or `Option`s, MR indices stand for handles.
* `Staging`    : the geometry of the PutValue staging buffer; the buffer itself is a function on byte offsets.
* `Kernel`     : the transport and its staging slots.
* `Kernel.post`, `Kernel.poll` : the calls, with what the network adaptor and the callbacks answer as an argument.

What a call does outside its own memory is a list of `Effect`s, in the order of the source.
-/

namespace FlagCX.KernelProxy

open Net Function

/-- `FLAGCX_RMA_PUT` to `FLAGCX_RMA_PUT_VALUE`. -/
inductive RmaType where
  | put
  | putSignal
  | get
  | putValue
  deriving DecidableEq, Repr

/-- What `flagcxKernelProxyPost` reads of the communicator. -/
structure Comm where
  rmaProxy : Bool
  netAdaptor : Bool
  oneSideHandleCount : Int
  oneSideHandles : Int → Bool
  contextSendComms : Bool
  nContexts : Int
  sendComm : Int → Int → Bool
  recvComm : Int → Option Nat
  gdrReadRequiresFlush : Int → Bool
  iput : Bool
  iget : Bool
  iputSignal : Bool
  /-- `stagingHandle` and its `baseVas` -/
  stagingHandle : Bool
  /-- `devCommHandle` and its `putValueStagingBuffer` -/
  stagingBuffer : Bool

/-- `flagcxOneSideGetCompletionRequiresFlush`. -/
def Comm.getRequiresFlush (comm : Comm) (dstMrIdx : Int) : Bool :=
  if dstMrIdx < 0 ∨ comm.oneSideHandleCount ≤ dstMrIdx then false
  else comm.oneSideHandles dstMrIdx && comm.gdrReadRequiresFlush dstMrIdx

/-- The staging fields of `flagcxDevCommInternal`; the two counts are `int`s. -/
structure Staging where
  contextCount : Int
  slotCount : Int
  kernelBaseSlot : Nat
  totalSlotCount : Nat
  contextCount_lt : contextCount < 2 ^ 31
  slotCount_lt : slotCount < 2 ^ 31

/-- `flagcxKernelPutValueStagingOffset`. -/
def Staging.offset (staging : Staging) (contextId stagingSlot : Int) : Option Nat :=
  if contextId < 0 ∨ staging.contextCount ≤ contextId ∨ stagingSlot < 0 ∨ staging.slotCount ≤ stagingSlot then none
  else
    let slot := (staging.kernelBaseSlot + contextId.toNat * staging.slotCount.toNat + stagingSlot.toNat) % 2 ^ 64
    if staging.totalSlotCount ≤ slot ∨ (2 ^ 64 - 1) / 8 < slot then none else some (slot * 8)

/-- What is handed to the network adaptor. A staging source is the offset of its cell, other handles are MR indices or
`NULL`. -/
inductive NetCall where
  | iput (srcOff dstOff size : Nat) (peer : Int) (src dst : Option Int)
  | iget (srcOff dstOff size : Nat) (peer : Int) (src dst : Option Int)
  | iputSignal (srcOff dstOff size : Nat) (peer : Int) (src dst : Option Int) (signalOff signalValue : Nat)
  | iputStaged (stagingOff dstOff : Nat) (peer dst : Int)
  deriving DecidableEq, Repr

/-- What the worker does outside its own memory, in the order of the source; `retire` notes what the scoreboard records. -/
inductive Effect where
  /-- `dequeue` returns a trigger -/
  | take (t : DeviceFifo.Trigger)
  /-- the adaptor is called for a trigger -/
  | hand (submit : SubmitContext) (t : DeviceFifo.Trigger) (call : NetCall) (posted : Bool)
  /-- the `fetch_add` on a counter -/
  | count (submit : SubmitContext) (t : DeviceFifo.Trigger) (index : Nat) (value : DeviceFifo.Word)
  /-- a submission has completed -/
  | retire (submit : SubmitContext) (r : Result)
  /-- `flagcxKernelProxyPublishTerminal` -/
  | publish (r : Result)
  /-- `flagcxKernelProxyStoreLocalTerminal` -/
  | store (r : Result)
  /-- the store of the next `consumed` -/
  | consume
  /-- `flagcxKernelProxyAdvanceCompleted` -/
  | advance (n : Nat)
  deriving DecidableEq, Repr

def retired (submit : SubmitContext) (r : Result) : List Effect := if r = .inProgress then [] else [.retire submit r]

def failed (r : Result) : List Effect := if r = .success then [] else [.publish r]

structure PostArgs where
  submit : SubmitContext
  peer : Int
  type : RmaType
  contextId : Int
  srcOff : Nat
  dstOff : Nat
  size : Nat
  srcMrIdx : Int
  dstMrIdx : Int
  signalOff : Nat
  signalValue : Nat
  putValue : UInt64

/-- The transport of one kernel context with its staging slots. -/
structure Kernel where
  transport : Transport
  stagingInUse : Nat → Bool
  stagingSlotCount : UInt32
  stagingCursor : Nat

namespace Kernel

/-- `flagcxKernelProxyTransportInit`. -/
def init (capacity stagingSlotCount : UInt32) (generation orderingKey : UInt64) (groups : Nat → ReleaseGroup) :
    Except Result Kernel := do
  let transport ← Transport.init capacity generation orderingKey groups
  return ⟨transport, fun _ => false, stagingSlotCount, 0⟩

/-- The staging slot that the search of `flagcxKernelProxyAcquireStagingSlot` looks at in its turn `i`. -/
def candidate (k : Kernel) (i : Nat) : Nat := (k.stagingCursor + i) % 2 ^ 32 % k.stagingSlotCount.toNat

/-- `flagcxKernelProxyAcquireStagingSlot`; the third component is `*slot`. -/
def acquireStagingSlot (k : Kernel) : Result × Kernel × Option Nat :=
  if k.stagingSlotCount = 0 then (.invalidArgument, k, none)
  else
    match (List.range k.stagingSlotCount.toNat).find? fun i => !k.stagingInUse (k.candidate i) with
    | none => (.inProgress, k, none)
    | some i =>
      (.success, { k with
        stagingInUse := update k.stagingInUse (k.candidate i) true
        stagingCursor := (k.candidate i + 1) % k.stagingSlotCount.toNat }, some (k.candidate i))

def releaseStagingSlot (k : Kernel) (slot : Int) : Result × Kernel :=
  if slot < 0 ∨ (k.stagingSlotCount.toNat : Int) ≤ slot ∨ k.stagingInUse slot.toNat = false then (.invalidArgument, k)
  else (.success, { k with stagingInUse := update k.stagingInUse slot.toNat false })

/-- A staging slot is given back when there is one. -/
def releaseIfAny (k : Kernel) (slot : Int) : Result × Kernel :=
  if 0 ≤ slot then k.releaseStagingSlot slot else (.success, k)

/-! ## Posting -/

/-- The outcome of `flagcxKernelProxyPost`. -/
structure Outcome where
  result : Result
  posted : Bool
  kernel : Kernel
  buffer : Nat → UInt64
  effects : List Effect
  call : Option NetCall

/-- The checks of `flagcxKernelProxyPost` before it reserves anything. -/
def checkPost (comm : Comm) (a : PostArgs) : Result :=
  if comm.rmaProxy = false ∨ comm.netAdaptor = false then .internalError
  else if comm.oneSideHandleCount < 1 ∨ comm.oneSideHandles 0 = false then .internalError
  else if 0 ≤ a.dstMrIdx ∧ comm.oneSideHandleCount ≤ a.dstMrIdx then .invalidArgument
  else if 0 ≤ a.srcMrIdx ∧ comm.oneSideHandleCount ≤ a.srcMrIdx then .invalidArgument
  else if comm.contextSendComms = false ∨ comm.nContexts ≤ a.contextId + 1 then .internalError
  else if comm.sendComm (a.contextId + 1) a.peer = false then .internalError
  else if 0 < a.size ∧ ¬ (0 ≤ a.srcMrIdx ∧ 0 ≤ a.dstMrIdx ∧ comm.oneSideHandles a.srcMrIdx = true ∧
      comm.oneSideHandles a.dstMrIdx = true) then .invalidArgument
  else .success

/-- `srcHandles` and `dstHandles`. -/
def handles (a : PostArgs) : Option Int × Option Int :=
  if 0 < a.size ∧ 0 ≤ a.srcMrIdx ∧ 0 ≤ a.dstMrIdx then (some a.srcMrIdx, some a.dstMrIdx) else (none, none)

/-- What the `switch` of `flagcxKernelProxyPost` hands to the adaptor, or why it does not; a PutValue names its cell. -/
def netCall (comm : Comm) (staging : Staging) (a : PostArgs) (stagingSlotCount : UInt32) (stagingSlot : Int) :
    Except Result NetCall :=
  let (src, dst) := handles a
  match a.type with
  | .put => if comm.iput then .ok (.iput a.srcOff a.dstOff a.size a.peer src dst) else .error .notSupported
  | .get => if comm.iget then .ok (.iget a.srcOff a.dstOff a.size a.peer src dst) else .error .notSupported
  | .putSignal =>
    if comm.iputSignal then .ok (.iputSignal a.srcOff a.dstOff a.size a.peer src dst a.signalOff a.signalValue)
    else .error .notSupported
  | .putValue =>
    if comm.stagingHandle = false ∨ comm.stagingBuffer = false ∨ staging.contextCount ≤ a.contextId ∨
        staging.slotCount ≠ stagingSlotCount.toNat then .error .internalError
    else if a.dstMrIdx < 0 ∨ comm.oneSideHandleCount ≤ a.dstMrIdx then .error .invalidArgument
    else if comm.iput = false then .error .notSupported
    else
      match staging.offset a.contextId stagingSlot with
      | none => .error .internalError
      | some offset => .ok (.iputStaged offset a.dstOff a.peer a.dstMrIdx)

/-- The store of a PutValue into its cell. -/
def stage (buffer : Nat → UInt64) (value : UInt64) : NetCall → Nat → UInt64
  | .iputStaged offset _ _ _ => update buffer offset value
  | _ => buffer

/-- The exit of `flagcxKernelProxyPost` that gives the request and the staging slot back. -/
def abandon (k : Kernel) (requestSlot : Nat) (stagingSlot : Int) (res : Result) : Result × Kernel × List Effect :=
  let canceled := k.transport.cancelRequest requestSlot
  let k := { k with transport := canceled.2 }
  let res := if canceled.1 ≠ .success then canceled.1 else res
  let released := k.releaseIfAny stagingSlot
  if released.1 ≠ .success then (released.1, released.2, [.publish released.1])
  else (res, released.2, if res ≠ .success ∧ res ≠ .inProgress then [.publish res] else [])

/-- `flagcxKernelProxyPost` behind the call of the adaptor. -/
def finishPost (k : Kernel) (requestSlot : Nat) (stagingSlot : Int) (requiresGetFlush : Bool) (answer : PostAnswer) :
    Result × Bool × Kernel × List Effect :=
  match answer.request with
  | some request =>
    let completionResult := if answer.result = .inProgress then .success else answer.result
    let published := k.transport.publishRequest requestSlot request completionResult
    let k := { k with transport := published.2 }
    if published.1 ≠ .success then (published.1, false, k, [.publish published.1])
    else (.success, true, k, failed completionResult)
  | none =>
    if answer.result = .success ∧ requiresGetFlush = true then
      let published := k.transport.publishGetFlushPending requestSlot
      let k := { k with transport := published.2 }
      if published.1 ≠ .success then
        let canceled := k.transport.cancelRequest requestSlot
        let res := if canceled.1 ≠ .success then canceled.1 else published.1
        (res, false, { k with transport := canceled.2 }, [.publish res])
      else (.success, true, k, [])
    else
      let out := k.abandon requestSlot stagingSlot answer.result
      (out.1, false, out.2.1, out.2.2)

/-- `flagcxKernelProxyPost` with a reserved request and its GET flush configured. -/
def postReserved (k : Kernel) (comm : Comm) (staging : Staging) (buffer : Nat → UInt64) (a : PostArgs)
    (requestSlot : Nat) (stagingSlot : Int) (requiresGetFlush : Bool) (answer : PostAnswer) : Outcome :=
  match netCall comm staging a k.stagingSlotCount stagingSlot with
  | .error e =>
    let out := k.finishPost requestSlot stagingSlot requiresGetFlush ⟨e, none⟩
    ⟨out.1, out.2.1, out.2.2.1, buffer, out.2.2.2, none⟩
  | .ok call =>
    let out := k.finishPost requestSlot stagingSlot requiresGetFlush answer
    ⟨out.1, out.2.1, out.2.2.1, stage buffer a.putValue call, out.2.2.2, some call⟩

/-- `flagcxKernelProxyRequireGetFlush` on the receive communicator of the context. -/
def requireFlush (t : Transport) (comm : Comm) (a : PostArgs) (requestSlot : Nat) : Result × Transport :=
  match comm.recvComm (a.contextId + 1) with
  | none => (.invalidArgument, t)
  | some recvComm => t.requireGetFlush requestSlot a.dstMrIdx a.dstOff a.size recvComm

/-- `flagcxKernelProxyPost` with its staging slot, if it needs one. -/
def postStaged (k : Kernel) (comm : Comm) (staging : Staging) (buffer : Nat → UInt64) (a : PostArgs)
    (stagingSlot : Int) (answer : PostAnswer) : Outcome :=
  let reserved := k.transport.reserveRequest a.submit a.peer stagingSlot
  match reserved.2.2 with
  | none => ⟨reserved.1, false, (k.releaseIfAny stagingSlot).2, buffer, [], none⟩
  | some requestSlot =>
    let k := { k with transport := reserved.2.1 }
    let requiresGetFlush := a.type = .get ∧ a.size ≠ 0 ∧ comm.getRequiresFlush a.dstMrIdx = true
    if requiresGetFlush then
      let required := requireFlush k.transport comm a requestSlot
      let k := { k with transport := required.2 }
      if required.1 ≠ .success then
        let canceled := k.transport.cancelRequest requestSlot
        let k := ({ k with transport := canceled.2 } : Kernel)
        ⟨if canceled.1 = .success then required.1 else canceled.1, false, (k.releaseIfAny stagingSlot).2, buffer, [], none⟩
      else k.postReserved comm staging buffer a requestSlot stagingSlot true answer
    else k.postReserved comm staging buffer a requestSlot stagingSlot false answer

def post (k : Kernel) (comm : Comm) (staging : Staging) (buffer : Nat → UInt64) (a : PostArgs) (answer : PostAnswer) :
    Outcome :=
  if checkPost comm a ≠ .success then ⟨checkPost comm a, false, k, buffer, [], none⟩
  else if a.type = .putValue then
    let acquired := k.acquireStagingSlot
    match acquired.2.2 with
    | none => ⟨acquired.1, false, acquired.2.1, buffer, [], none⟩
    | some stagingSlot => acquired.2.1.postStaged comm staging buffer a stagingSlot answer
  else k.postStaged comm staging buffer a (-1) answer

/-! ## Polling -/

/-- What the callbacks answer while one request is polled. -/
structure Answers where
  data : TestAnswer
  flush : TestAnswer
  post : PostAnswer

def awaitsData (r : Request) : Bool := r.state == .posted && r.requiresGetFlush && r.completionStage == .dataPosted

/-- One turn of the first loop of `flagcxKernelProxyPoll`. -/
def pollData (k : Kernel) (i : Nat) (a : Answers) : Kernel × List Effect :=
  if awaitsData (k.transport.requests i) then
    let p := k.transport.progressRequest i a.data a.flush a.post
    ({ k with transport := p.transport }, failed p.result)
  else (k, [])

/-- The request is aborted and its staging slot given back. -/
def abort (k : Kernel) (i : Nat) : Kernel :=
  let stagingSlot := (k.transport.requests i).stagingSlot
  let aborted := k.transport.abortRequest i
  let k := { k with transport := aborted.2 }
  if aborted.1 = .success then (k.releaseIfAny stagingSlot).2 else k

/-- `*advanced` of `flagcxKernelProxyCompleteRequest`. -/
def advanced (t : Transport) (slot : Nat) (result : Result) : Nat :=
  (trackCompletion t.scoreboard (t.requests slot).submit result).2.1

/-- The request is ready: `flagcxKernelProxyCompleteRequest` and what follows it. -/
def complete (k : Kernel) (i : Nat) (completionResult : Result) : Kernel × List Effect :=
  let stagingSlot := (k.transport.requests i).stagingSlot
  let submit := (k.transport.requests i).submit
  let completed := k.transport.completeRequest i completionResult
  let advanced := advanced k.transport i completionResult
  let k := { k with transport := completed.2 }
  if completed.1 ≠ .success then (k.abort i, [.publish completed.1])
  else
    let released := k.releaseIfAny stagingSlot
    (released.2, retired submit completionResult ++ failed released.1 ++ failed completionResult ++ [.advance advanced])

/-- One turn of the second loop of `flagcxKernelProxyPoll`. -/
def pollRequest (k : Kernel) (i : Nat) (a : Answers) : Kernel × List Effect :=
  if (k.transport.requests i).state ≠ .posted then (k, [])
  else
    let p := k.transport.progressRequest i a.data a.flush a.post
    let k := { k with transport := p.transport }
    if p.result ≠ .success then (k.abort i, [.publish p.result])
    else if p.ready then k.complete i p.completionResult
    else (k, [])

def pollAll (turn : Kernel → Nat → Kernel × List Effect) : List Nat → Kernel → Kernel × List Effect
  | [], k => (k, [])
  | i :: is, k =>
    let out := turn k i
    let rest := pollAll turn is out.1
    (rest.1, out.2 ++ rest.2)

/-- `flagcxKernelProxyPoll`; `canTest` says that the communicator has an adaptor with a `test`. -/
def poll (k : Kernel) (canTest : Bool) (first second : Nat → Answers) : Kernel × List Effect :=
  if k.transport.nativeInflight = 0 ∨ canTest = false then (k, [])
  else
    let datas := pollAll (fun k i => k.pollData i (first i)) (List.range k.transport.capacity) k
    let rest := pollAll (fun k i => k.pollRequest i (second i)) (List.range k.transport.capacity) datas.1
    (rest.1, datas.2 ++ rest.2)

end Kernel

end FlagCX.KernelProxy
