import FlagCX.Lib.BitFields

/-!
# Device triggers

The three words of a `flagcxDeviceTrigger`: what the device operations pack into them
(`flagcx/adaptor/include/device_api/default_comm_traits.h`) and what the proxy reads out of them
(`flagcx/core/flagcx_kernel_host.cc`, `flagcxKernelWorkerProgressOnce` in `flagcx/core/proxy.cc`).

* `buildTrd`, `Net.enqueue` : the encoders, most of which shift their arguments without a mask.
* `Trigger.read`            : the arguments of the proxy's cases, through the accessors.
* `Net.wanted`              : the requests of an operation with the arguments it was called with.

Sizes, offsets and values are the 64-bit words of the source, ranks and indices the words that its `int`s are
converted to.
-/

namespace FlagCX.DeviceFifo
open Lib

/-- `uint64_t` -/
abbrev Word := BitVec 64

structure Trigger where
  fst : Word
  snd : Word
  trd : Word
  deriving DecidableEq, Repr

/-! ## The layout of `flagcx_kernel_core.h` -/

/-- `flagcxDeviceTriggerOffValid`: the one bit of `flagcxDeviceTriggerValidMask`. -/
def validField : Field := ⟨63, 1⟩

def primField : Field := ⟨59, 4⟩

def peerRankField : Field := ⟨39, 20⟩

/-- The 36 bits of the last word that belong to the primitive. -/
def specificField : Field := ⟨0, 36⟩

def datatypeField : Field := ⟨32, 4⟩

def countField : Field := ⟨0, 32⟩

def srcMrIdxField : Field := ⟨29, 7⟩

def dstMrIdxField : Field := ⟨22, 7⟩

def signalIdxField : Field := ⟨10, 12⟩

def signalValuePutField : Field := ⟨0, 16⟩

def srcOffsetField : Field := ⟨32, 32⟩

def dstOffsetField : Field := ⟨0, 32⟩

def sizeField : Field := ⟨32, 32⟩

def bufferTypeField : Field := ⟨34, 2⟩

def signalIdxSigField : Field := ⟨22, 12⟩

def signalValueField : Field := ⟨6, 16⟩

/-- The members of `flagcxDevicePrim` that the device operations use. -/
inductive Prim where
  | send
  | recv
  | term
  | put
  | signal
  | putValue
  | putSignal
  | get
  | signalValue
  deriving DecidableEq, Repr

def Prim.code : Prim → Word
  | .send => 0
  | .recv => 1
  | .term => 2
  | .put => 4
  | .signal => 5
  | .putValue => 8
  | .putSignal => 9
  | .get => 10
  | .signalValue => 11

/-! ## Accessors -/

namespace Trigger
variable (t : Trigger)

def getPrim : Word := primField.read t.trd

def getPeerRank : Word := peerRankField.read t.trd

def getAddr : Word := t.fst

def getDatatype : Word := datatypeField.read t.trd

def getCount : Word := countField.read t.trd

def getSrcMrIdx : Word := srcMrIdxField.read t.trd

def getDstMrIdx : Word := dstMrIdxField.read t.trd

def getSize : Word := sizeField.read t.snd

def getSrcOffset : Word := srcOffsetField.read t.fst

def getDstOffset : Word := dstOffsetField.read t.fst

def getValue : Word := t.snd

def getSignalIdx : Word :=
  if t.getPrim = Prim.putSignal.code then signalIdxField.read t.trd else signalIdxSigField.read t.trd

def getSignalValue : Word :=
  if t.getPrim = Prim.putSignal.code then signalValuePutField.read t.snd
  else if t.getPrim = Prim.signalValue.code then t.snd
  else signalValueField.read t.trd

def getBufferType : Word := bufferTypeField.read t.trd

def getTotalCoops : Word := t.fst

end Trigger

/-- What a case of the proxy's `switch` reads before it acts. A signal's index is that of its slot among the slots of all
contexts; a counter's case does not read the peer. -/
inductive Request where
  | send (addr count datatype peer : Word)
  | recv (addr count datatype peer : Word)
  | term (totalCoops : Word)
  | put (peer srcMrIdx dstMrIdx srcOffset dstOffset size : Word)
  | get (peer srcMrIdx dstMrIdx srcOffset dstOffset size : Word)
  | putValue (peer dstMrIdx dstOffset value : Word)
  | putSignal (peer srcMrIdx dstMrIdx srcOffset dstOffset size : Word) (signalIdx : Nat) (signalValue : Word)
  | signal (peer : Word) (signalIdx : Nat) (signalValue : Word)
  | counter (counterIdx : Nat) (signalValue : Word)
  | noOp
  deriving DecidableEq, Repr

/-- The `switch` of `flagcxKernelWorkerProgressOnce` on `getPrim`. -/
def Trigger.read (t : Trigger) : Request :=
  if t.getPrim = Prim.send.code then .send t.getAddr t.getCount t.getDatatype t.getPeerRank
  else if t.getPrim = Prim.recv.code then .recv t.getAddr t.getCount t.getDatatype t.getPeerRank
  else if t.getPrim = Prim.term.code then .term t.getTotalCoops
  else if t.getPrim = Prim.put.code then
    .put t.getPeerRank t.getSrcMrIdx t.getDstMrIdx t.getSrcOffset t.getDstOffset t.getSize
  else if t.getPrim = Prim.signal.code ∨ t.getPrim = Prim.signalValue.code then
    if t.getBufferType = 0 then .signal t.getPeerRank t.getSignalIdx.toNat t.getSignalValue
    else .counter t.getSignalIdx.toNat t.getSignalValue
  else if t.getPrim = Prim.putSignal.code then
    .putSignal t.getPeerRank t.getSrcMrIdx t.getDstMrIdx t.getSrcOffset t.getDstOffset t.getSize t.getSignalIdx.toNat
      t.getSignalValue
  else if t.getPrim = Prim.putValue.code then .putValue t.getPeerRank t.getDstMrIdx t.getDstOffset t.getValue
  else if t.getPrim = Prim.get.code then
    .get t.getPeerRank t.getSrcMrIdx t.getDstMrIdx t.getSrcOffset t.getDstOffset t.getSize
  else .noOp

/-- The additions to signals that a request makes at its peer: peer, index and value. -/
def Request.adds : Request → List (Word × Nat × Word)
  | .putSignal peer _ _ _ _ _ signalIdx signalValue => [(peer, signalIdx, signalValue)]
  | .signal peer signalIdx signalValue => [(peer, signalIdx, signalValue)]
  | _ => []

/-! ## The valid bit -/

/-- The bit that `fifoEnqueue` sets in the last word. -/
def Trigger.publish (t : Trigger) : Trigger := { t with trd := t.trd ||| validField.place 1#64 }

/-- The bit that `dequeue` takes out again. -/
def Trigger.taken (t : Trigger) : Trigger := { t with trd := t.trd &&& ~~~validField.place 1#64 }

/-! ## Encoders -/

def buildTrd (prim : Prim) (peerRank primSpecific : Word) : Word :=
  primField.place (prim.code &&& Field.mask 64 primField.bits) |||
    peerRankField.place (peerRank &&& Field.mask 64 peerRankField.bits) ||| primSpecific

/-- The numbers of a `Net` that index its signals and counters. -/
structure Net where
  contextId : Nat
  signalCount : Nat
  counterCount : Nat

/-- `flagcxDevNet_None`, `flagcxDevNet_SignalInc` and `flagcxDevNet_SignalAdd` -/
inductive RemoteAction where
  | none
  | signalInc (signal : Nat)
  | signalAdd (signal : Nat) (value : Word)
  deriving DecidableEq, Repr

def RemoteAction.isSignal : RemoteAction → Bool
  | .none => false
  | _ => true

def RemoteAction.signalIdx : RemoteAction → Nat
  | .none => 0
  | .signalInc signal => signal
  | .signalAdd signal _ => signal

def RemoteAction.value : RemoteAction → Word
  | .none => 0
  | .signalInc _ => 1
  | .signalAdd _ value => value

def RemoteAction.canFuse : RemoteAction → Bool
  | .none => false
  | .signalInc _ => true
  | .signalAdd _ value => value ≤ Field.mask 64 signalValuePutField.bits

namespace Net
variable (net : Net)

def signalSlot (signalIdx : Nat) : Nat := net.contextId * net.signalCount + signalIdx

def counterSlot (counterIdx : Nat) : Nat := net.contextId * net.counterCount + counterIdx

/-- `enqueueFifoSend` and `enqueueFifoRecv`, which differ in the primitive. -/
def twoSided (prim : Prim) (addr count datatype peer : Word) : Trigger :=
  ⟨addr, 0, buildTrd prim peer (datatypeField.place datatype ||| countField.place count)⟩

def enqueueFifoSend : Word → Word → Word → Word → Trigger := twoSided .send

def enqueueFifoRecv : Word → Word → Word → Word → Trigger := twoSided .recv

def enqueueFifoTerm (totalCoops : Word) : Trigger := ⟨totalCoops, 0, buildTrd .term 0 0⟩

/-- `enqueueFifoPut` and `enqueueFifoGet`, which differ in the primitive. -/
def transfer (prim : Prim) (peer srcMrIdx dstMrIdx srcOffset dstOffset size : Word) : Trigger :=
  ⟨srcOffsetField.place srcOffset ||| dstOffsetField.place dstOffset, sizeField.place size,
    buildTrd prim peer (srcMrIdxField.place srcMrIdx ||| dstMrIdxField.place dstMrIdx)⟩

def enqueueFifoPut : Word → Word → Word → Word → Word → Word → Trigger := transfer .put

def enqueueFifoGet : Word → Word → Word → Word → Word → Word → Trigger := transfer .get

def combinedIdx (signalIdx : Nat) (bufferType : Word) : Nat :=
  if bufferType = 0 then net.signalSlot signalIdx else net.counterSlot signalIdx

def enqueueFifoSignal (signalIdx : Nat) (value peer bufferType : Word) : Trigger :=
  ⟨0, 0, buildTrd .signal peer (bufferTypeField.place bufferType |||
    signalIdxSigField.place (BitVec.ofNat 64 (net.combinedIdx signalIdx bufferType)) |||
    signalValueField.place (value &&& Field.mask 64 16))⟩

def enqueueFifoSignalValue (signalIdx : Nat) (value peer bufferType : Word) : Trigger :=
  ⟨0, value, buildTrd .signalValue peer (bufferTypeField.place bufferType |||
    signalIdxSigField.place (BitVec.ofNat 64 (net.combinedIdx signalIdx bufferType)))⟩

def enqueueFifoPutValue (peer dstMrIdx dstOffset value : Word) : Trigger :=
  ⟨dstOffset &&& Field.mask 64 dstOffsetField.bits, value, buildTrd .putValue peer (dstMrIdxField.place dstMrIdx)⟩

def enqueueFifoPutSignal (peer srcMrIdx dstMrIdx srcOffset dstOffset size : Word) (signalIdx : Nat) (signalValue : Word) :
    Trigger :=
  ⟨srcOffsetField.place srcOffset ||| dstOffsetField.place dstOffset,
    sizeField.place size ||| signalValuePutField.place (signalValue &&& Field.mask 64 16),
    buildTrd .putSignal peer (srcMrIdxField.place srcMrIdx ||| dstMrIdxField.place dstMrIdx |||
      signalIdxField.place (BitVec.ofNat 64 (net.signalSlot signalIdx)))⟩

def enqueueFifoSignalAction (ra : RemoteAction) (peer : Word) : Trigger :=
  if ra.value ≤ Field.mask 64 signalValueField.bits then net.enqueueFifoSignal ra.signalIdx ra.value peer 0
  else net.enqueueFifoSignalValue ra.signalIdx ra.value peer 0

end Net

/-! ## Operations -/

/-- The operations of a `Net`, with window offsets taken from the registered base (`toDataOffset`) and ranks of the world. A
`put` may add to a signal of its peer and to one of its own counters. -/
inductive Operation where
  | send (addr count datatype peer : Word)
  | recv (addr count datatype peer : Word)
  | term (totalCoops : Word)
  | put (peer srcMrIdx dstMrIdx srcOffset dstOffset size : Word) (ra : RemoteAction) (la : Option Nat)
  | get (peer srcMrIdx dstMrIdx srcOffset dstOffset size : Word)
  | putValue (peer dstMrIdx dstOffset value : Word) (ra : RemoteAction)
  | signal (peer : Word) (ra : RemoteAction)
  deriving DecidableEq, Repr

namespace Net
variable (net : Net)

def splitSignal (ra : RemoteAction) (peer : Word) : List Trigger :=
  if ra.isSignal then [net.enqueueFifoSignalAction ra peer] else []

def enqueue : Operation → List Trigger
  | .send addr count datatype peer => [enqueueFifoSend addr count datatype peer]
  | .recv addr count datatype peer => [enqueueFifoRecv addr count datatype peer]
  | .term totalCoops => [enqueueFifoTerm totalCoops]
  | .put peer srcMrIdx dstMrIdx srcOffset dstOffset size ra la =>
    (if ra.canFuse then
      [net.enqueueFifoPutSignal peer srcMrIdx dstMrIdx srcOffset dstOffset size ra.signalIdx ra.value]
    else enqueueFifoPut peer srcMrIdx dstMrIdx srcOffset dstOffset size :: net.splitSignal ra peer) ++
    la.toList.map fun counterIdx => net.enqueueFifoSignal counterIdx 1 0 1
  | .get peer srcMrIdx dstMrIdx srcOffset dstOffset size =>
    [enqueueFifoGet peer srcMrIdx dstMrIdx srcOffset dstOffset size]
  | .putValue peer dstMrIdx dstOffset value ra =>
    enqueueFifoPutValue peer dstMrIdx dstOffset value :: net.splitSignal ra peer
  | .signal peer ra => net.splitSignal ra peer

def wantedSignal (ra : RemoteAction) (peer : Word) : List Request :=
  if ra.isSignal then [.signal peer (net.signalSlot ra.signalIdx) ra.value] else []

def wanted : Operation → List Request
  | .send addr count datatype peer => [.send addr count datatype peer]
  | .recv addr count datatype peer => [.recv addr count datatype peer]
  | .term totalCoops => [.term totalCoops]
  | .put peer srcMrIdx dstMrIdx srcOffset dstOffset size ra la =>
    (if ra.canFuse then
      [.putSignal peer srcMrIdx dstMrIdx srcOffset dstOffset size (net.signalSlot ra.signalIdx) ra.value]
    else .put peer srcMrIdx dstMrIdx srcOffset dstOffset size :: net.wantedSignal ra peer) ++
    la.toList.map fun counterIdx => .counter (net.counterSlot counterIdx) 1
  | .get peer srcMrIdx dstMrIdx srcOffset dstOffset size => [.get peer srcMrIdx dstMrIdx srcOffset dstOffset size]
  | .putValue peer dstMrIdx dstOffset value ra => .putValue peer dstMrIdx dstOffset value :: net.wantedSignal ra peer
  | .signal peer ra => net.wantedSignal ra peer

end Net

end FlagCX.DeviceFifo
