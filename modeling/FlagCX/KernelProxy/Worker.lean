import FlagCX.KernelProxy.Post

/-!
# The loop of the kernel worker (`flagcxKernelWorkerProgressOnce` in `proxy.cc`)

* `Worker`           : the fields of `flagcxKernelWorkerState` that one call leaves to the next.
* `Worker.handle`    : the `switch` on the primitive of a trigger.
* `Worker.progress`  : a call of `flagcxKernelWorkerProgressOnce` behind its poll and its load of the terminal status.
* `Loop`             : a worker with the words it shares, its accesses to them one at a time.

The words `consumed` and `completed` are natural numbers here. What the worker reads of others is an argument of the call:
the communicator, the answers of the adaptor and of the two-sided calls, what `dequeue` returns.
-/

namespace FlagCX.KernelProxy

open Net

/-! ## One trigger -/

def submitData : UInt32 := 1

def submitRelease : UInt32 := 2

def submitIndependent : UInt32 := 4

/-- `flagcxKernelProxySubmitFlags`. -/
def submitFlags (t : DeviceFifo.Trigger) : UInt32 :=
  match t.read with
  | .put .. | .get .. | .putValue .. => submitData ||| submitIndependent
  | .putSignal .. => submitData ||| submitRelease ||| submitIndependent
  | .signal .. | .counter .. => submitRelease ||| submitIndependent
  | _ => 0

/-- What the worker reads of the communicator, its one-sided handles and its device communicator. -/
structure Node where
  comm : Comm
  staging : Staging
  nRanks : Int
  signalHandle : Bool
  /-- `devCommHandle` and its `counterBuffer` -/
  counterBuffer : Bool
  contextCount : Int
  counterCount : Int

/-- `flagcxKernelProxyValidatePeer`. -/
def Node.validatePeer (node : Node) (peerRank ctx : Int) : Result :=
  if node.comm.oneSideHandleCount < 1 ∨ node.comm.oneSideHandles 0 = false then .notSupported
  else if peerRank < 0 ∨ node.nRanks ≤ peerRank then .invalidArgument
  else if node.comm.contextSendComms = false ∨ node.comm.nContexts ≤ ctx ∨ node.comm.sendComm ctx peerRank = false then
    .notSupported
  else .success

/-- What `flagcxKernelWorkerState` keeps from one call to the next. -/
structure Worker where
  kernel : Kernel
  buffer : Nat → UInt64
  /-- `pending`, if `hasPending` -/
  pending : Option DeviceFifo.Trigger
  pendingTracked : Bool
  submit : SubmitContext
  groupCount : Nat
  termCount : Nat

/-- What the adaptor answers to a post, and the last two-sided call. -/
structure Reply where
  post : PostAnswer
  hetero : Result

/-- What the `switch` leaves: `res`, `postedIB`, `retryPending`. -/
structure Handled where
  result : Result
  posted : Bool
  retry : Bool
  worker : Worker
  effects : List Effect

namespace Worker

def answer (w : Worker) (result : Result) : Handled := ⟨result, false, false, w, []⟩

def postTo (w : Worker) (node : Node) (signals : Bool) (t : DeviceFifo.Trigger) (a : PostArgs) (reply : Reply) : Handled :=
  if node.validatePeer a.peer (a.contextId + 1) ≠ .success then w.answer (node.validatePeer a.peer (a.contextId + 1))
  else if signals = true ∧ node.signalHandle = false then w.answer .internalError
  else
    let out := w.kernel.post node.comm node.staging w.buffer a reply.post
    ⟨out.result, out.posted, out.result = .inProgress, { w with kernel := out.kernel, buffer := out.buffer },
      (out.call.map fun call => .hand w.submit t call out.posted).toList ++ out.effects⟩

def addCounter (w : Worker) (node : Node) (contextId : Int) (t : DeviceFifo.Trigger) (index : Nat)
    (value : DeviceFifo.Word) : Handled :=
  let contextCount := if 0 < node.contextCount then node.contextCount else 1
  if node.counterBuffer = false then w.answer .internalError
  else if node.counterCount ≤ 0 ∨ contextCount * node.counterCount ≤ index then w.answer .invalidArgument
  else if (index : Int) / node.counterCount ≠ contextId then w.answer .internalError
  else ⟨.success, false, false, w, [.count w.submit t index value]⟩

/-- The `switch` of `flagcxKernelWorkerProgressOnce`. -/
def handle (w : Worker) (node : Node) (contextId : Int) (t : DeviceFifo.Trigger) (reply : Reply) : Handled :=
  match t.read with
  | .send .. | .recv .. => { w with groupCount := if w.groupCount = 0 then 1 else w.groupCount }.answer reply.hetero
  | .term totalCoops =>
    if 0 < w.groupCount ∧ (totalCoops.truncate 32).toInt ≤ (w.termCount + 1 : Nat) then
      { w with groupCount := w.groupCount - 1, termCount := 0 }.answer reply.hetero
    else { w with termCount := w.termCount + 1 }.answer .success
  | .put peer src dst srcOff dstOff size =>
    w.postTo node false t ⟨w.submit, peer.toNat, .put, contextId, srcOff.toNat, dstOff.toNat, size.toNat, src.toNat,
      dst.toNat, 0, 0, 0⟩ reply
  | .signal peer index value =>
    w.postTo node true t ⟨w.submit, peer.toNat, .putSignal, contextId, 0, 0, 0, -1, -1, index * 8, value.toNat, 0⟩ reply
  | .counter index value => w.addCounter node contextId t index value
  | .putSignal peer src dst srcOff dstOff size index value =>
    w.postTo node true t ⟨w.submit, peer.toNat, .putSignal, contextId, srcOff.toNat, dstOff.toNat, size.toNat, src.toNat,
      dst.toNat, index * 8, value.toNat, 0⟩ reply
  | .putValue peer dst dstOff value =>
    w.postTo node false t ⟨w.submit, peer.toNat, .putValue, contextId, 0, dstOff.toNat, 0, -1, dst.toNat, 0, 0, ⟨value⟩⟩
      reply
  | .get peer src dst srcOff dstOff size =>
    w.postTo node false t ⟨w.submit, peer.toNat, .get, contextId, srcOff.toNat, dstOff.toNat, size.toNat, src.toNat,
      dst.toNat, 0, 0, 0⟩ reply
  | .noOp => w.answer .success

/-- What follows the `switch`. -/
def settle (h : Handled) : Worker × List Effect :=
  if h.retry then (h.worker, h.effects)
  else if h.posted then
    ({ h.worker with pending := none, pendingTracked := false }, h.effects ++ [.consume] ++ failed h.result)
  else
    let t := h.worker.kernel.transport
    let out := trackCompletion t.scoreboard h.worker.submit h.result
    let res := if out.1 ≠ .success then out.1 else h.result
    ({ h.worker with
        kernel := { h.worker.kernel with transport := { t with scoreboard := out.2.2 } }
        pending := none, pendingTracked := false },
      h.effects ++ [.consume] ++ (if out.1 = .success then retired h.worker.submit h.result else []) ++ failed res ++
        [.advance out.2.1] ++ failed res)

def track (w : Worker) (t : DeviceFifo.Trigger) : Result × Worker :=
  if w.pendingTracked then (.success, w)
  else
    let tr := w.kernel.transport
    let out := tr.trackNext (submitFlags t)
    let w := { w with kernel := { w.kernel with transport := out.2 } }
    if out.1 ≠ .success then (out.1, w)
    else (.success, { w with
      pendingTracked := true, submit := ⟨tr.orderingKey, 0, tr.generation, tr.nextSequence, submitFlags t⟩ })

/-- A tracked trigger; a release waits for `flagcxKernelProxyReleaseReady`. -/
def release (w : Worker) (node : Node) (contextId : Int) (t : DeviceFifo.Trigger) (reply : Reply) : Worker × List Effect :=
  let scoreboard := w.kernel.transport.scoreboard.scoreboard
  if w.submit.flags &&& submitRelease ≠ 0 then
    if scoreboard.firstError ≠ .success then settle ⟨scoreboard.firstError, false, false, w, [.publish scoreboard.firstError]⟩
    else if scoreboard.nextSequence ≠ w.submit.sequence then (w, [])
    else settle (w.handle node contextId t reply)
  else settle (w.handle node contextId t reply)

def process (w : Worker) (node : Node) (contextId : Int) (t : DeviceFifo.Trigger) (reply : Reply) : Worker × List Effect :=
  let tracked := w.track t
  if tracked.1 = .success then tracked.2.release node contextId t reply
  else (tracked.2, if tracked.1 = .inProgress then [] else [.publish tracked.1])

/-- `flagcxKernelWorkerProgressOnce` from the load of the terminal status on. -/
def progress (w : Worker) (node : Node) (contextId : Int) (terminal : Result) (dequeued : Option DeviceFifo.Trigger)
    (reply : Reply) : Worker × List Effect :=
  if terminal ≠ .success then (w, [.store terminal])
  else
    match w.pending with
    | some t => w.process node contextId t reply
    | none =>
      match dequeued with
      | none => (w, [])
      | some t =>
        let out := { w with pending := some t, pendingTracked := false }.process node contextId t reply
        (out.1, .take t :: out.2)

end Worker

/-! ## Runs -/

/-- A worker with its FIFO's words and the communicator's `terminalResult`. `todo` is what the call under way has still to
do, `log` what was done. -/
structure Loop where
  worker : Worker
  polled : Bool
  todo : List Effect
  consumed : Nat
  completed : Nat
  terminal : Result
  terminalResult : Result
  log : List Effect

/-- A call starts with its poll, and ends with it when it is to stop; then it does the rest; its accesses are made one by
one. Other workers publish their errors. -/
inductive LoopAct where
  | poll (stopping canTest : Bool) (first second : Nat → Kernel.Answers)
  | progress (node : Node) (dequeued : Option DeviceFifo.Trigger) (reply : Reply)
  | access
  | elsewhere (r : Result)

/-- An error that may be published. -/
def isTerminal (r : Result) : Bool := r ≠ .success ∧ r ≠ .inProgress

namespace Loop

def start (k : Kernel) (buffer : Nat → UInt64) : Loop where
  worker := ⟨k, buffer, none, false, ⟨0, 0, 0, 0, 0⟩, 0, 0⟩
  polled := false
  todo := []
  consumed := 0
  completed := 0
  terminal := .success
  terminalResult := .success
  log := []

def access (l : Loop) : Effect → Loop
  | .publish r =>
    if isTerminal r then
      let terminal := if l.terminalResult = .success then r else l.terminalResult
      { l with terminalResult := terminal, terminal := if isTerminal terminal then terminal else l.terminal }
    else l
  | .store r => if isTerminal r then { l with terminal := r } else l
  | .consume => { l with consumed := l.consumed + 1 }
  | .advance n => { l with completed := l.completed + n }
  | _ => l

def step (contextId : Int) (l : Loop) : LoopAct → Option Loop
  | .poll stopping canTest first second =>
    if l.todo ≠ [] ∨ l.polled then none
    else
      let out := l.worker.kernel.poll canTest first second
      some { l with worker := { l.worker with kernel := out.1 }, todo := out.2, polled := !stopping }
  | .progress node dequeued reply =>
    if l.todo ≠ [] ∨ l.polled = false then none
    else
      let out := l.worker.progress node contextId l.terminalResult dequeued reply
      some { l with worker := out.1, todo := out.2, polled := false }
  | .access =>
    match l.todo with
    | [] => none
    | e :: es => some { l.access e with todo := es, log := l.log ++ [e] }
  | .elsewhere r => some (if isTerminal r ∧ l.terminalResult = .success then { l with terminalResult := r } else l)

end Loop

end FlagCX.KernelProxy
