import FlagCX.Lib.IntruQueue
import FlagCX.UniRunner.Dag

/-!
# The UniRunner scheduler (`runner/uni_runner_impl.cc`)

`runUniRunner` as a thread: one step is one iteration of one of its loops, and what the device answers in it is an argument
of the step (`Answers`). The numbers of the nodes stand for their addresses.

* `Lanes`, `Lanes.releaseChildren` : the queues and counters that nodes move through, and the release of children.
* `Runner.step`                  : the loops of `runUniRunner`, `processReadyQueue` and `processInflightQueue`.
-/

namespace FlagCX.UniRunner

open Lib Function

/-! ## Results (`runner_result.h`) -/

/-- `flagcxRunnerResultAccepted`; `FLAGCXCHECK` goes on after the same results. -/
def runnerResultAccepted (result : Result) : Bool := result = .success ∨ result = .inProgress

/-- `flagcxRunnerRecordFirstError`, the new value of `*firstError`. -/
def runnerRecordFirstError (candidate firstError : Result) : Result :=
  if runnerResultAccepted firstError && !runnerResultAccepted candidate then candidate else firstError

/-- `flagcxRunnerRunGroup` on the results of its three parts. -/
def runnerRunGroup (start body stop : Result) : Result :=
  if runnerResultAccepted start then runnerRecordFirstError stop (runnerRecordFirstError body .success) else start

def runnerClassifyEventQuery (queryResult : Result) : Result × Bool :=
  if queryResult = .success then (.success, true)
  else if queryResult = .inProgress then (.success, false)
  else (queryResult, false)

/-! ## The event pool -/

/-- `uniRunnerP2pEventBitmap`. -/
structure EventBitmap where
  bits : Nat → BitVec 64
  nextIdx : Nat
  size : Nat

namespace EventBitmap

variable (m : EventBitmap)

def isAvailable (index : Nat) : Bool := m.bits (index / 64) &&& (1#64 <<< (index % 64)) == 0

/-- The loop of `getAvailable`; `i` is how many of its iterations are left. -/
def scan : Nat → EventBitmap → Option Nat × EventBitmap
  | 0, m => (none, m)
  | i + 1, m =>
    let next := { m with nextIdx := (m.nextIdx + 1) % m.size }
    if m.isAvailable m.nextIdx then (some m.nextIdx, next) else scan i next

def getAvailable : Option Nat × EventBitmap := scan m.size m

def markInUse (index : Nat) : EventBitmap :=
  { m with bits := update m.bits (index / 64) (m.bits (index / 64) ||| (1#64 <<< (index % 64))) }

def markAvailable (index : Nat) : EventBitmap :=
  { m with bits := update m.bits (index / 64) (m.bits (index / 64) &&& ~~~(1#64 <<< (index % 64))) }

/-- `flagcxUniRunnerState::getEvent`. -/
def getEvent : Option Nat × EventBitmap :=
  match m.getAvailable with
  | (some idx, m') => (some idx, m'.markInUse idx)
  | (none, m') => (none, m')

end EventBitmap

/-! ## The reduce FIFO -/

/-- `flagcxReduceTriggerState` as the host writes it. What the device makes of an enqueued trigger is answered to the poll
of the runner, and is never `flagcxReduceTriggerAvailable`. -/
inductive TriggerState where
  | available
  | enqueued
  deriving DecidableEq, Repr

/-- The FIFO of reduce triggers. The control words have 64 bits. -/
structure Fifo where
  capacity : Nat
  produced : UInt64
  triggers : Nat → TriggerState
  terminate : Bool

/-- `enqueue`: `*ret`, with the counter `consumed` as the device has it. -/
def Fifo.enqueue (f : Fifo) (consumed : UInt64) : Option Nat × Fifo :=
  if f.capacity ≤ (f.produced - consumed).toNat then (none, f)
  else
    let idx := f.produced.toNat % f.capacity
    if f.triggers idx ≠ .available then (none, f)
    else (some idx, { f with triggers := update f.triggers idx .enqueued, produced := f.produced + 1 })

/-! ## Queues and counters -/

/-- The four queues of `flagcxUniRunnerState`. -/
inductive QueueId where
  | p2pReady
  | redReady
  | p2pInflight
  | redInflight
  deriving DecidableEq, Repr

/-- The part of `flagcxUniRunnerState` that nodes move through. -/
structure Lanes where
  queues : Queues QueueId Nat
  numParents : Nat → Int
  numPendingNodes : Int

section Release
variable (dag : List DagNode)

def nodeData (u : Nat) : Option NodeData := dag[u]?.map (·.nodeData)

def childrenOf (u : Nat) : List Nat := (dag[u]?.map (·.children)).getD []

def Lanes.enqueueReadyQueue (s : Lanes) (nodeIdx : Nat) : Result × Lanes :=
  match nodeData dag nodeIdx with
  | some (.p2p _) | some (.cpy _) =>
    (.success, { s with queues := s.queues.enqueue .p2pReady nodeIdx, numPendingNodes := s.numPendingNodes - 1 })
  | some (.red _) =>
    (.success, { s with queues := s.queues.enqueue .redReady nodeIdx, numPendingNodes := s.numPendingNodes - 1 })
  | none => (.notSupported, s)

def Lanes.releaseChildren (s : Lanes) : List Nat → Result × Lanes
  | [] => (.success, s)
  | v :: vs =>
    let s := { s with numParents := update s.numParents v (s.numParents v - 1) }
    if s.numParents v = (0 : Int) then
      match s.enqueueReadyQueue dag v with
      | (.success, s) => s.releaseChildren vs
      | out => out
    else s.releaseChildren vs

end Release

/-! ## The runner -/

/-- Where the thread stands in `runUniRunner`, `processReadyQueue` or `processInflightQueue` (with `prev` and `curr`). -/
inductive Pc where
  | head
  | p2pReady
  | redReady
  | p2pInflight (prev curr : Option Nat)
  | redInflight (prev curr : Option Nat)
  | finished
  | failed (result : Result)
  deriving DecidableEq, Repr

/-- `flagcxUniRunnerState`, the fields the scheduler writes, and the thread. An index of -1 is `none`. -/
structure Runner extends Lanes where
  eventIdx : Nat → Option Nat
  triggerIdx : Nat → Option Nat
  p2pEventMap : EventBitmap
  fifo : Fifo
  pc : Pc

/-- What the device and the heterogeneous layer answer: the parts of a group of sends and receives, a copy, the record of
an event, the query of an event, the consumed counter of the FIFO, and whether the polled trigger is complete. -/
structure Answers where
  groupStart : Result
  groupBody : Result
  groupEnd : Result
  memcpy : Result
  eventRecord : Result
  eventQuery : Result
  consumed : UInt64
  triggerComplete : Bool

/-- What can be observed: a node is launched, and is seen complete. -/
inductive Note where
  | launched (u : Nat)
  | completed (u : Nat)
  deriving DecidableEq, Repr

section Runner
variable (dag : List DagNode)

def Runner.fail (s : Runner) (result : Result) : Runner :=
  { s with fifo := { s.fifo with terminate := true }, pc := .failed result }

/-- The result of what `launchP2pOps` starts for a node, before the event is recorded. -/
def launchResult (ans : Answers) : NodeData → Option Result
  | .p2p _ => some (runnerRunGroup ans.groupStart ans.groupBody ans.groupEnd)
  | .cpy _ => some ans.memcpy
  | .red _ => none

def Runner.launchP2pOps (s : Runner) (ans : Answers) (eventIdx : Nat) : Result × Runner × List Note :=
  match s.queues.dequeue .p2pReady with
  | none => (.systemError, s, [])
  | some (current, queues) =>
    let s := { s with queues := queues }
    match (nodeData dag current).bind (launchResult ans) with
    | none => (.systemError, s, [])
    | some result =>
      if result ≠ .success then (result, { s with p2pEventMap := s.p2pEventMap.markAvailable eventIdx }, [])
      else if ans.eventRecord ≠ .success then
        (ans.eventRecord, { s with p2pEventMap := s.p2pEventMap.markAvailable eventIdx }, [])
      else
        (.success, { s with
          eventIdx := update s.eventIdx current (some eventIdx)
          queues := s.queues.enqueue .p2pInflight current }, [.launched current])

/-- An iteration of the first loop of `processReadyQueue`. -/
def Runner.stepP2pReady (s : Runner) (ans : Answers) : Runner × List Note :=
  if s.queues.isEmpty .p2pReady then ({ s with pc := .redReady }, [])
  else
    match s.p2pEventMap.getEvent with
    | (none, map) => ({ s with p2pEventMap := map, pc := .redReady }, [])
    | (some eventIdx, map) =>
      let out := Runner.launchP2pOps dag { s with p2pEventMap := map } ans eventIdx
      if runnerResultAccepted out.1 then out.2 else (out.2.1.fail out.1, out.2.2)

/-- An iteration of the second loop of `processReadyQueue`. -/
def Runner.stepRedReady (s : Runner) (ans : Answers) : Runner × List Note :=
  let leave : Runner := { s with pc := .p2pInflight none (s.queues.head .p2pInflight) }
  match s.queues.head .redReady with
  | none => (leave, [])
  | some current =>
    match s.fifo.enqueue ans.consumed with
    | (none, _) => (leave, [])
    | (some idx, fifo) =>
      match s.queues.dequeue .redReady with
      | none => (leave, [])
      | some (_, queues) =>
        ({ s with
          fifo := fifo, queues := queues.enqueue .redInflight current
          triggerIdx := update s.triggerIdx current (some idx) }, [.launched current])

/-- The completion of the node behind `prev`: its children are released, and it leaves the queue. -/
def Runner.complete (s : Runner) (queue : QueueId) (prev : Option Nat) (curr : Nat) (pc : Option Nat → Pc) :
    Runner × List Note :=
  match s.toLanes.releaseChildren dag (childrenOf dag curr) with
  | (.success, lanes) =>
    let removed := lanes.queues.remove queue prev
    ({ s with toLanes := { lanes with queues := removed.2 }, pc := pc removed.1 }, [.completed curr])
  | (result, lanes) => ({ s with toLanes := lanes }.fail result, [.completed curr])

/-- An iteration of the walk over `p2pInflightQueue`. -/
def Runner.stepP2pInflight (s : Runner) (ans : Answers) (prev : Option Nat) (curr : Nat) : Runner × List Note :=
  match nodeData dag curr with
  | some (.p2p _) | some (.cpy _) =>
    match runnerClassifyEventQuery ans.eventQuery with
    | (.success, true) =>
      let s := { s with
        p2pEventMap := (s.eventIdx curr).elim s.p2pEventMap s.p2pEventMap.markAvailable
        eventIdx := update s.eventIdx curr none }
      s.complete dag .p2pInflight prev curr (.p2pInflight prev)
    | (.success, false) => ({ s with pc := .p2pInflight (some curr) (s.queues.next curr) }, [])
    | (result, _) => (s.fail result, [])
  | _ => (s.fail .systemError, [])

/-- An iteration of the walk over `redInflightQueue`. -/
def Runner.stepRedInflight (s : Runner) (ans : Answers) (prev : Option Nat) (curr : Nat) : Runner × List Note :=
  let trigger := (s.triggerIdx curr).getD 0
  if s.fifo.triggers trigger ≠ .available ∧ ans.triggerComplete then
    let s := { s with fifo := { s.fifo with triggers := update s.fifo.triggers trigger .available } }
    s.complete dag .redInflight prev curr (.redInflight prev)
  else ({ s with pc := .redInflight (some curr) (s.queues.next curr) }, [])

def Runner.step (s : Runner) (ans : Answers) : Option (Runner × List Note) :=
  match s.pc with
  | .head =>
    if s.queues.isEmpty .p2pReady && s.queues.isEmpty .redReady && s.queues.isEmpty .p2pInflight &&
        s.queues.isEmpty .redInflight && s.numPendingNodes == 0 then
      some ({ s with fifo := { s.fifo with terminate := true }, pc := .finished }, [])
    else some ({ s with pc := .p2pReady }, [])
  | .p2pReady => some (s.stepP2pReady dag ans)
  | .redReady => some (s.stepRedReady ans)
  | .p2pInflight _ none => some ({ s with pc := .redInflight none (s.queues.head .redInflight) }, [])
  | .p2pInflight prev (some curr) => some (s.stepP2pInflight dag ans prev curr)
  | .redInflight _ none => some ({ s with pc := .head }, [])
  | .redInflight prev (some curr) => some (s.stepRedInflight dag ans prev curr)
  | .finished | .failed _ => none

/-- The thread and what was observed so far. -/
structure Execution where
  runner : Runner
  log : List Note

def Execution.step (e : Execution) (ans : Answers) : Option Execution :=
  (e.runner.step dag ans).map fun out => ⟨out.1, e.log ++ out.2⟩

end Runner

/-- The device adaptor does not answer a copy or the record of an event with `flagcxInProgress`. -/
def Answers.Settled (ans : Answers) : Prop := ans.memcpy ≠ .inProgress ∧ ans.eventRecord ≠ .inProgress

/-- The queues that a builder leaves, enqueued one node after the other. -/
def RunnerState.queues (st : RunnerState) : Queues QueueId Nat :=
  st.redReadyQueue.foldl (·.enqueue .redReady ·) (st.p2pReadyQueue.foldl (·.enqueue .p2pReady ·) Queues.construct)

/-- `runUniRunner` is entered after a builder, with an event pool and a FIFO of given sizes. -/
def RunnerState.start (st : RunnerState) (eventPoolSize fifoCapacity : Nat) : Runner where
  queues := st.queues
  numParents := fun u => ((st.dagNodes[u]?.map (·.numParents)).getD 0 : Nat)
  numPendingNodes := st.numPendingNodes
  eventIdx := fun _ => none
  triggerIdx := fun _ => none
  p2pEventMap := ⟨fun _ => 0, 0, eventPoolSize⟩
  fifo := ⟨fifoCapacity, 0, fun _ => .available, false⟩
  pc := .head

end FlagCX.UniRunner
