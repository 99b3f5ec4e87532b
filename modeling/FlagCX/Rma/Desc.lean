import FlagCX.KernelProxy.Transport
import FlagCX.Net.ReleaseGroup

/-!
# Descriptors of the RMA proxy (`flagcx_hetero.h`, `flagcx_hetero.cc`)

* `Submission` is the part of `flagcxRmaDesc` that stays as it is once the descriptor is published, `Desc` adds what
  the progress thread and the arming of an event write later.
* `ApiCall` are the entry points that enqueue descriptors, `Enqueue` what they hand to the ring of a peer.
* Pointers that are only tested (`request`, `streamEvent`) are Booleans. The peer of a descriptor is the one whose queue
  it is in, and the reference count of a release group, which only decides when it is freed, is left out.
-/

namespace FlagCX.Rma

open Net
open KernelProxy (CompletionStage)

inductive DescType where
  | put
  | putSignal
  | get
  | putValue
  | release
  | ipcGet
  deriving DecidableEq, Repr

def submitData : UInt32 := 1

def submitRelease : UInt32 := 2

def submitIndependent : UInt32 := 4

/-- The fields of `flagcxRmaDesc` that are fixed when it is published. -/
structure Submission where
  type : DescType
  srcOff : UInt64
  dstOff : UInt64
  size : UInt64
  srcMrIdx : Int
  dstMrIdx : Int
  signalOff : UInt64
  signalValue : UInt64
  putValue : UInt64
  streamEvent : Bool
  opSeq : UInt64
  orderingKey : UInt64
  groupId : UInt64
  generation : UInt64
  sequence : UInt64
  submitFlags : UInt32
  releaseGroup : Option Nat
  deriving DecidableEq, Repr

structure Desc extends Submission where
  request : Bool
  eventArmed : Bool
  ipcStatus : Result
  completionResult : Result
  completionStage : CompletionStage
  getSequence : Nat
  getVisibilityDomain : Option Nat
  getDataComplete : Bool
  deriving DecidableEq, Repr

def Desc.zero : Desc :=
  { type := .put, srcOff := 0, dstOff := 0, size := 0, srcMrIdx := 0, dstMrIdx := 0, signalOff := 0, signalValue := 0,
    putValue := 0, streamEvent := false, opSeq := 0, orderingKey := 0, groupId := 0, generation := 0, sequence := 0,
    submitFlags := 0, releaseGroup := none, request := false, eventArmed := false, ipcStatus := .success,
    completionResult := .success, completionStage := .dataPosted, getSequence := 0, getVisibilityDomain := some 0,
    getDataComplete := false }

namespace Submission

/-- `desc->submitFlags & FLAGCX_RMA_SUBMIT_DATA`. -/
def isData (d : Submission) : Bool := d.submitFlags &&& submitData != 0

/-- `desc->submitFlags & FLAGCX_RMA_SUBMIT_RELEASE`. -/
def isRelease (d : Submission) : Bool := d.submitFlags &&& submitRelease != 0

def submitContext (d : Submission) : SubmitContext where
  orderingKey := d.orderingKey
  -- a release observes its group but is no data member of it
  groupId := if d.isData then d.groupId else 0
  generation := d.generation
  sequence := d.sequence
  flags := d.submitFlags

/-- The release group that `flagcxRmaProxyTrackDesc` hands to the scoreboard. -/
def trackedGroup (d : Submission) : Option Nat := if d.isData then d.releaseGroup else none

/-- `completesApiOperation` of `flagcxRmaProxyCompleteDesc`. -/
def completesApiOperation (d : Submission) : Bool := d.releaseGroup.isNone || d.isRelease

end Submission

/-! ## What a descriptor becomes on the wire -/

/-- A call of the network adaptor. `handles` are the indices of the source and destination regions, `none` for `NULL`. -/
inductive NetCall where
  | iput (srcOff dstOff size : UInt64) (handles : Option (Int × Int))
  | iputStaged (dstOff : UInt64) (dstMrIdx : Int)
  | iputSignal (srcOff dstOff size : UInt64) (handles : Option (Int × Int)) (signalOff signalValue : UInt64)
  | iget (srcOff dstOff size : UInt64) (handles : Option (Int × Int))
  deriving DecidableEq, Repr

/-- `srcHandles` and `dstHandles` of `flagcxRmaProxyPostOp`. -/
def Submission.handles (d : Submission) : Option (Int × Int) :=
  if 0 < d.size ∧ 0 ≤ d.srcMrIdx then some (d.srcMrIdx, d.dstMrIdx) else none

/-- The adaptor call that `flagcxRmaProxyPostOp` makes for a descriptor, or the error it returns without one. A put-value
reads the peer's slot of the staging buffer. -/
def Submission.netCall (d : Submission) (hasStaging : Bool) : Except Result NetCall :=
  match d.type with
  | .put => .ok (.iput d.srcOff d.dstOff d.size d.handles)
  | .putSignal => .ok (.iputSignal d.srcOff d.dstOff d.size d.handles d.signalOff d.signalValue)
  | .release => .ok (.iputSignal 0 0 0 none d.signalOff d.signalValue)
  | .get => .ok (.iget d.srcOff d.dstOff d.size d.handles)
  | .ipcGet => .error .internalError
  | .putValue => if hasStaging then .ok (.iputStaged d.dstOff d.dstMrIdx) else .error .internalError

/-! ## Entry points -/

/-- Where one transfer reads and writes. -/
structure Extent where
  srcOffset : UInt64
  dstOffset : UInt64
  size : UInt64
  srcMrIdx : Int
  dstMrIdx : Int
  deriving DecidableEq, Repr

def Desc.ofExtent (x : Extent) (type : DescType) : Desc :=
  { Desc.zero with
    type := type, srcOff := x.srcOffset, dstOff := x.dstOffset, size := x.size, srcMrIdx := x.srcMrIdx,
    dstMrIdx := x.dstMrIdx }

/-- `FLAGCX_RMA_SUBMIT_INDEPENDENT` if the caller asserts independence. -/
def independence (independent : Bool) : UInt32 := if independent then submitIndependent else 0

def putDesc (x : Extent) (orderingKey : UInt64) (independent : Bool) : Desc :=
  { Desc.ofExtent x .put with
    orderingKey := if independent then orderingKey else 0
    submitFlags := submitData ||| independence independent }

def batchPutDesc (x : Extent) : Desc := { Desc.ofExtent x .put with orderingKey := 0, submitFlags := submitData }

/-- The descriptor of `flagcxHeteroGet`. An event given with the call is armed from the start. -/
def getDesc (x : Extent) (orderingKey : UInt64) (independent streamEvent : Bool) : Desc :=
  { Desc.ofExtent x .get with
    streamEvent := streamEvent
    eventArmed := streamEvent
    orderingKey := if independent then orderingKey else 0
    submitFlags := submitData ||| independence independent }

/-- The descriptor of the intra-node path of `flagcxHeteroGetStream`. -/
def ipcGetDesc : Desc :=
  { Desc.zero with
    type := .ipcGet, streamEvent := true, ipcStatus := .success, submitFlags := submitData, srcMrIdx := -1,
    dstMrIdx := -1 }

def putValueDesc (value dstOffset : UInt64) (dstMrIdx : Int) : Desc :=
  { Desc.zero with
    type := .putValue, dstOff := dstOffset, dstMrIdx := dstMrIdx, size := 0, srcMrIdx := -1, putValue := value,
    orderingKey := 0, submitFlags := submitData }

/-- A data descriptor of `flagcxHeteroPutSignal` and `flagcxHeteroBatchPutSignal`. -/
def signalDataDesc (group : Nat) (groupId : UInt64) (x : Extent) (orderingKey : UInt64) (independent : Bool) : Desc :=
  { putDesc x orderingKey independent with groupId := groupId, releaseGroup := some group }

/-- The release descriptor of `flagcxHeteroPutSignal` and `flagcxHeteroBatchPutSignal`. -/
def signalReleaseDesc (group : Nat) (groupId signalOffset signalValue orderingKey : UInt64) (independent : Bool) : Desc :=
  { Desc.zero with
    type := .release, srcMrIdx := -1, dstMrIdx := -1, signalOff := signalOffset, signalValue := signalValue,
    orderingKey := if independent then orderingKey else 0, groupId := groupId
    submitFlags := submitRelease ||| independence independent, releaseGroup := some group }

/-- The calls that enqueue descriptors for one peer. A `batchPut` is one ring-sized chunk of `flagcxHeteroBatchPut`, and
`getIpc` the intra-node path of `flagcxHeteroGetStream`. -/
inductive ApiCall where
  | put (x : Extent) (streamSyncReady : Bool) (orderingKey : UInt64) (independent : Bool)
  | batchPut (xs : List Extent)
  | putSignal (x : Extent) (signalOffset signalValue : UInt64) (streamSyncReady : Bool) (orderingKey : UInt64)
      (independent : Bool)
  | batchPutSignal (xs : List (Extent × UInt64 × Bool)) (signalOffset signalValue releaseOrderingKey : UInt64)
      (releaseIndependent : Bool)
  | get (x : Extent) (orderingKey : UInt64) (independent streamEvent : Bool)
  | getIpc
  | putValue (value dstOffset : UInt64) (dstMrIdx : Int)
  deriving DecidableEq, Repr

/-- What a call hands to the ring: `flagcxRmaProxyEnqueueDesc`, `flagcxRmaProxyEnqueueDescBatch`,
`flagcxRmaProxyEnqueueReleaseGroup`, and the enqueue inside `flagcxHeteroGetStream`. -/
inductive Enqueue where
  | desc (d : Desc) (streamSyncReady : Bool)
  | batch (ds : List Desc)
  | releaseGroup (data : List Desc) (release : Desc) (streamSyncReady : Bool)
  | ipcGet (d : Desc)
  deriving DecidableEq, Repr

def Enqueue.descs : Enqueue → List Desc
  | .desc d _ => [d]
  | .batch ds => ds
  | .releaseGroup data release _ => data ++ [release]
  | .ipcGet d => [d]

/-- The descriptors a call allocates. `group` is the release group it allocates and `groupId` the number it drew from
`groupSeqs[peer]`. -/
def ApiCall.enqueue (group : Nat) (groupId : UInt64) : ApiCall → Enqueue
  | .put x streamSyncReady orderingKey independent => .desc (putDesc x orderingKey independent) streamSyncReady
  | .batchPut xs => .batch (xs.map batchPutDesc)
  | .putSignal x signalOffset signalValue streamSyncReady orderingKey independent =>
    .releaseGroup (if 0 < x.size then [signalDataDesc group groupId x orderingKey independent] else [])
      (signalReleaseDesc group groupId signalOffset signalValue orderingKey independent) streamSyncReady
  | .batchPutSignal xs signalOffset signalValue releaseOrderingKey releaseIndependent =>
    .releaseGroup (xs.map fun x => signalDataDesc group groupId x.1 x.2.1 x.2.2)
      (signalReleaseDesc group groupId signalOffset signalValue releaseOrderingKey releaseIndependent) false
  | .get x orderingKey independent streamEvent => .desc (getDesc x orderingKey independent streamEvent) streamEvent
  | .getIpc => .ipcGet ipcGetDesc
  | .putValue value dstOffset dstMrIdx => .desc (putValueDesc value dstOffset dstMrIdx) false

end FlagCX.Rma
