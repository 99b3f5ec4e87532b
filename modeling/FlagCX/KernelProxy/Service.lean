import FlagCX.DeviceFifo.Fifo
import FlagCX.KernelProxy.Worker

/-!
# The device, its FIFO and the kernel worker together

* `Phase`  : where the worker's thread stands, in its loop or in `flagcxKernelWorkerFinish`.
* `Service` : the words of the FIFO with the device threads, the worker, and what it has still to do and has done.
* `Service.step` : one access of one party.

Behind its loop the worker calls `flagcxKernelWorkerFinish`: it stores the terminal status, closes the producer gate if that
is an error, drains its transport, stores the status again, and for an error finalizes the FIFO.
-/

namespace FlagCX.KernelProxy

/-- Where the worker's thread stands; `drained` is behind `flagcxKernelProxyDrain`, `closed` is `producerGateClosed`. -/
inductive Phase where
  /-- between two calls of `flagcxKernelWorkerProgressOnce` -/
  | idle
  /-- in a call, behind its poll -/
  | polled
  | dequeuing
  /-- in `flagcxKernelWorkerFinish`, between a load of the terminal status and its store -/
  | loaded (r : Result) (closed drained : Bool)
  /-- in `flagcxKernelProxyCloseFifoProducerGate` -/
  | closing (drained : Bool)
  /-- in `flagcxKernelProxyDrain` -/
  | draining (closed : Bool)
  /-- in `flagcxKernelProxyFinalizeTerminalFifo` -/
  | finalizing
  | finished
  deriving DecidableEq

structure Service where
  fifo : DeviceFifo.State
  worker : Worker
  phase : Phase
  todo : List Effect
  terminalResult : Result
  log : List Effect

/-- A device thread does an access; the worker starts a call with its poll, loads the terminal status and goes on, does an
access of `dequeue`, one that was decided, or one of `flagcxKernelWorkerFinish`; another worker publishes an error. -/
inductive ServiceAct where
  | device (a : DeviceFifo.Action)
  | poll (stopping canTest : Bool) (first second : Nat → Kernel.Answers)
  | progress (node : Node) (reply : Reply)
  | dequeue (node : Node) (reply : Reply)
  | access
  | finish
  | elsewhere (r : Result)

namespace Service

def start (k : Kernel) (buffer : Nat → UInt64) : Service where
  fifo := .init
  worker := ⟨k, buffer, none, false, ⟨0, 0, 0, 0, 0⟩, 0, 0⟩
  phase := .idle
  todo := []
  terminalResult := .success
  log := []

variable (c : DeviceFifo.Config) (contextId : Int) (s : Service)

def host (a : DeviceFifo.HostAction) : Option Service := (s.fifo.hostStep c a).map fun fifo => { s with fifo := fifo }

/-- `flagcxKernelProxyStoreLocalTerminal` -/
def storeTerminal (r : Result) : Option Service := if isTerminal r then s.host c (.storeTerminal r) else some s

def carryOut : Effect → Option Service
  | .publish r =>
    if isTerminal r then
      let terminal := if s.terminalResult = .success then r else s.terminalResult
      { s with terminalResult := terminal }.storeTerminal c terminal
    else some s
  | .store r => s.storeTerminal c r
  | .consume => s.host c .consume
  | .advance n => s.host c (.advance n)
  | _ => some s

/-- What follows the first load of the terminal status in a call. -/
def progress (node : Node) (reply : Reply) : Service :=
  if s.terminalResult = .success ∧ s.worker.pending = none then { s with phase := .dequeuing }
  else
    let out := s.worker.progress node contextId s.terminalResult none reply
    { s with worker := out.1, todo := out.2, phase := .idle }

/-- The next access of `dequeue`; when it has returned a trigger, what follows. -/
def dequeue (node : Node) (reply : Reply) : Option Service :=
  match s.fifo.host with
  | .pending t =>
    let out := s.worker.progress node contextId .success (some t) reply
    some { s with worker := out.1, todo := out.2, phase := .idle }
  | _ => (s.host c .dequeue).map fun s => { s with phase := if s.fifo.host = .idle then .idle else .dequeuing }

/-- The next access of `flagcxKernelProxyCloseFifoProducerGate`. -/
def close (drained : Bool) : Option Service :=
  match s.fifo.host with
  | .closed => some { s with phase := if drained then .finalizing else .draining true }
  | .closing => s.host c .await
  | _ => s.host c .close

/-- The next access of `flagcxKernelWorkerFinish`. -/
def finish : Option Service :=
  match s.phase with
  | .idle => some { s with phase := .loaded s.terminalResult false false }
  | .loaded r closed drained =>
    (s.storeTerminal c r).map fun s => { s with
      phase :=
        if r = .success then (if drained then .finished else .draining closed)
        else if closed then .finalizing else .closing drained }
  | .closing drained => s.close c drained
  | .draining closed =>
    if s.worker.kernel.transport.nativeInflight = 0 then some { s with phase := .loaded s.terminalResult closed true } else none
  | .finalizing =>
    match s.fifo.host with
    | .finalized _ => some { s with phase := .finished }
    | _ => s.host c .finalize
  | _ => none

def poll (stopping canTest : Bool) (first second : Nat → Kernel.Answers) : Option Service :=
  let out := s.worker.kernel.poll canTest first second
  let s := { s with worker := { s.worker with kernel := out.1 }, todo := out.2 }
  match s.phase with
  | .idle => some { s with phase := if stopping then .idle else .polled }
  | .draining _ => some s
  | _ => none

/-- The accesses that were decided are made before anything else is. -/
def step : ServiceAct → Option Service
  | .device (.host _) => none
  | .device a => (s.fifo.step c a).map fun fifo => { s with fifo := fifo }
  | .poll stopping canTest first second => if s.todo = [] then s.poll stopping canTest first second else none
  | .progress node reply => if s.todo = [] ∧ s.phase = .polled then some (s.progress contextId node reply) else none
  | .dequeue node reply => if s.todo = [] ∧ s.phase = .dequeuing then s.dequeue c contextId node reply else none
  | .access =>
    match s.todo with
    | [] => none
    | e :: es => (s.carryOut c e).map fun s => { s with todo := es, log := s.log ++ [e] }
  | .finish => if s.todo = [] then s.finish c else none
  | .elsewhere r => some (if isTerminal r ∧ s.terminalResult = .success then { s with terminalResult := r } else s)

end Service

end FlagCX.KernelProxy
