import FlagCX.Group.Schedule
import FlagCX.Lib.StepMap

/-!
# Groups (`group.cc`, `flagcxHeteroSendOnChannel`, `flagcxHeteroRecvOnChannel`)

A thread collects sends and receives in the queues of its communicators and launches them when the outermost group ends.

* `HeteroComm`, `Thread` : a communicator and what a thread keeps of its group.
* `Answers` : what the calls answer that can fail.
* `collectComm` : the proxy ops of the tasks of a communicator; `groupLaunch`, `groupEnd` : the launch and the end of a
  group; `heteroSend`, `heteroRecv` : one operation.
* `step` : the calls of a thread.
-/

namespace FlagCX.Group
open Lib Function

/-- `FLAGCXCHECK` and `FLAGCXCHECKGOTO` leave on every other result. -/
def accepted (result : Result) : Bool := result = .success ∨ result = .inProgress

def maxChannels : Nat := 32

/-- `INT_MAX`, the `opId` of a task without one. -/
def noOpId : Int := 2 ^ 31 - 1

/-- `flagcxTaskP2p`. Where the source has the address of a task, the model has its `tag`: the number of tasks with the same
queue and channel before it. -/
structure TaskP2p where
  buff : Nat
  bytes : Nat
  channelId : Nat
  dtype : Nat
  stream : Nat
  opId : Int
  step : Int
  tag : Nat
  deriving DecidableEq, Repr

inductive Pattern where
  | send
  | recv
  deriving DecidableEq, Repr

/-- `flagcxProxyOp`, as far as a launch fills it in. -/
structure ProxyOp where
  pattern : Pattern
  nbytes : Nat
  sendbuff : Nat
  recvbuff : Nat
  channelId : Nat
  root : Nat
  stream : Nat
  opId : Int
  step : Int
  tag : Nat
  deriving DecidableEq, Repr

/-- `flagcxHeteroComm`, with the queues of `flagcxTasks` by direction and peer, the connectors by direction, channel and
peer. The two flags stand for `groupNext` and `preconnectNext` other than `0x1`; a connector is registered if its
`connected` or its `registered` is set. -/
structure HeteroComm where
  rank : Nat
  nRanks : Nat
  localRanks : Nat
  p2pSchedule : List P2pSchedulePair
  connection : Pattern → Nat → Nat → Bool
  registered : Pattern → Nat → Nat → Bool
  queue : Pattern → Nat → List TaskP2p
  p2pOrderSteps : Nat
  inGroup : Bool
  inPreconnect : Bool

def HeteroComm.setQueue (comm : HeteroComm) (pattern : Pattern) (peer : Nat) (tasks : List TaskP2p) : HeteroComm :=
  { comm with queue := update comm.queue pattern (update (comm.queue pattern) peer tasks) }

/-- The thread-local variables of a group, the communicators by number, and the ops handed to `flagcxProxySaveOp`. -/
structure Thread where
  groupDepth : Int
  groupCommHead : List Nat
  groupCommPreconnectHead : List Nat
  asyncJobs : List Nat
  comms : Nat → HeteroComm
  saved : List (Nat × ProxyOp)

/-- What the fallible calls of an operation and of a launch answer. Ops are numbered by `defaultOpId`. -/
structure Answers where
  callocTask : Result
  callocJob : Nat → Result
  created : Nat → Bool
  preconnect : Nat → Result
  newProxyOp : Nat → Result
  prepareProxyOp : Nat → Result
  eventRecord : Nat → Result
  streamWaitEvent : Nat → Result
  saveOp : Nat → Result
  launchFunc : Result

/-! ## Collecting the tasks -/

/-- The variables of `groupLaunch`; `roundSendStep` and `roundRecvStep` are the two values of `roundStep`. -/
structure LaunchState where
  comms : Nat → HeteroComm
  proxyOps : StepMap (Nat × ProxyOp)
  defaultOpId : Nat
  launchStream : Nat
  roundStep : Pattern → Nat

/-- A part of `groupLaunch`. -/
abbrev Launch := EStateM Result LaunchState

def check (result : Result) : Launch Unit := if accepted result then pure () else throw result

/-- A test that leaves with `flagcxInternalError`. -/
def require (holds : Bool) : Launch Unit := if holds then pure () else throw .internalError

/-- `launchStream` after an op on `stream`. -/
def joinStream (launchStream stream : Nat) : Nat := if launchStream = 0 then stream else launchStream

/-- `op->args.step`. -/
def stepOf (p2pScheduleDisable : Bool) (task : TaskP2p) (roundStep : Nat) : Int :=
  if task.step = -1 then (if p2pScheduleDisable then 0 else roundStep) else task.step

def opIdOf (p2pScheduleDisable : Bool) (task : TaskP2p) (defaultOpId : Nat) (roundOpId : Int) : Int :=
  if task.opId = noOpId then (if p2pScheduleDisable then (defaultOpId : Int) else roundOpId) else task.opId

/-- The state with another queue of a peer of communicator `c`. -/
def LaunchState.setQueue (s : LaunchState) (c : Nat) (pattern : Pattern) (peer : Nat) (tasks : List TaskP2p) :
    LaunchState := { s with comms := update s.comms c ((s.comms c).setQueue pattern peer tasks) }

def LaunchState.pushOp (s : LaunchState) (c : Nat) (op : ProxyOp) : LaunchState :=
  { s with
    proxyOps := s.proxyOps.push op.step (c, op)
    defaultOpId := s.defaultOpId + 1
    launchStream := joinStream s.launchStream op.stream }

section Tasks
variable (disable : Bool) (ans : Answers) (c : Nat)

def recordEvent (n : Nat) : Launch Unit := do
  check (ans.eventRecord n)
  let s ← get
  if s.launchStream = 0 then pure () else check (ans.streamWaitEvent n)

def selfOp (send recv : TaskP2p) (rank n : Nat) : ProxyOp :=
  ⟨.send, send.bytes, send.buff, recv.buff, send.channelId, rank, send.stream, opIdOf disable send n 0,
    stepOf disable send 0, send.tag⟩

/-- The body of the round of the rank itself, at a pair of tasks that match. -/
def selfCopy (send recv : TaskP2p) : Launch Unit := do
  let s ← get
  if send.buff = recv.buff then pure () else
    check (ans.newProxyOp s.defaultOpId)
    recordEvent ans s.defaultOpId
    set (s.pushOp c (selfOp disable send recv (s.comms c).rank s.defaultOpId))

def selfMatches (send recv : TaskP2p) : Bool :=
  send.bytes = recv.bytes ∧ send.dtype = recv.dtype ∧ send.channelId = recv.channelId

/-- The loops over `sendTasks` and `recvTasks`: each send takes the first receive that matches. The tasks that are left
over come back. -/
def selfLoop : List TaskP2p → List TaskP2p → Launch (List TaskP2p × List TaskP2p)
  | [], recvTasks => pure ([], recvTasks)
  | send :: sendTasks, recvTasks => do
    match recvTasks.find? (selfMatches send) with
    | none =>
      let left ← selfLoop sendTasks recvTasks
      pure (send :: left.1, left.2)
    | some recv =>
      selfCopy disable ans c send recv
      selfLoop sendTasks (recvTasks.eraseP (selfMatches send))

def selfRound : Launch Unit := do
  let s ← get
  let peer := (s.comms c).rank
  let sendTasks := (s.comms c).queue .send peer
  let recvTasks := (s.comms c).queue .recv peer
  set ((s.setQueue c .send peer []).setQueue c .recv peer [])
  let left ← selfLoop disable ans c sendTasks recvTasks
  modify fun s => (s.setQueue c .send peer left.1).setQueue c .recv peer left.2

def Pattern.opId (pattern : Pattern) (roundOpId : Nat) : Int :=
  match pattern with
  | .send => roundOpId
  | .recv => -roundOpId

/-- The op of a task. The buffer of a send is kept in `recvbuff` as well. -/
def peerOp (pattern : Pattern) (task : TaskP2p) (peer n roundStep roundOpId : Nat) : ProxyOp :=
  ⟨pattern, task.bytes, 0, task.buff, task.channelId, peer, task.stream,
    opIdOf disable task n (pattern.opId roundOpId), stepOf disable task roundStep, task.tag⟩

def peerDone (pattern : Pattern) (peer roundOpId : Nat) (s : LaunchState) (task : TaskP2p) : LaunchState :=
  { s.pushOp c (peerOp disable pattern task peer s.defaultOpId (s.roundStep pattern) roundOpId) with
    roundStep := update s.roundStep pattern (s.roundStep pattern + 1) }

def peerTask (pattern : Pattern) (peer roundOpId : Nat) (task : TaskP2p) : Launch Unit := do
  modify fun s => s.setQueue c pattern peer ((s.comms c).queue pattern peer).tail
  let s ← get
  check (ans.newProxyOp s.defaultOpId)
  require ((s.comms c).connection pattern task.channelId peer)
  check (ans.prepareProxyOp s.defaultOpId)
  recordEvent ans s.defaultOpId
  set (peerDone disable c pattern peer roundOpId s task)

/-- The loop of a round over the receives from one peer and the sends to another: a receive, then a send, until both
queues are empty. -/
def drain (recvPeer sendPeer roundOpId : Nat) : List TaskP2p → List TaskP2p → Launch Unit
  | [], sends => sends.forM (peerTask disable ans c .send sendPeer roundOpId)
  | recv :: recvs, [] => do
    peerTask disable ans c .recv recvPeer roundOpId recv
    drain recvPeer sendPeer roundOpId recvs []
  | recv :: recvs, send :: sends => do
    peerTask disable ans c .recv recvPeer roundOpId recv
    peerTask disable ans c .send sendPeer roundOpId send
    drain recvPeer sendPeer roundOpId recvs sends

def beginRound (roundOpId tmpRoundOpId : Nat) : Launch Unit :=
  if roundOpId = tmpRoundOpId then pure () else modify fun s => { s with roundStep := fun _ => 0 }

def HeteroComm.pair (comm : HeteroComm) (round : Nat) : P2pSchedulePair := comm.p2pSchedule.getD round ⟨0, 0⟩

/-- One round. Every `localRanks` rounds have an op id of their own. -/
def roundTasks (roundOpId round : Nat) : Launch Nat := do
  let s ← get
  let tmpRoundOpId := round / (s.comms c).localRanks + 1
  beginRound roundOpId tmpRoundOpId
  let pair := (s.comms c).pair round
  drain disable ans c pair.recvRank pair.sendRank tmpRoundOpId ((s.comms c).queue .recv pair.recvRank)
    ((s.comms c).queue .send pair.sendRank)
  pure tmpRoundOpId

def collectComm : Launch Unit := do
  selfRound disable ans c
  modify fun s => { s with roundStep := fun _ => 0 }
  let s ← get
  let _ ← (List.range' 1 ((s.comms c).nRanks - 1)).foldlM (roundTasks disable ans c) 1
  modify fun s => { s with comms := update s.comms c { s.comms c with p2pOrderSteps := 0 } }

end Tasks

/-! ## The launch -/

/-- The jobs of the preconnect list: `none` if all of them could be allocated, and the queue. -/
def createJobs (ans : Answers) : List Nat → List Nat → Option Result × List Nat
  | [], jobs => (none, jobs)
  | c :: cs, jobs => if accepted (ans.callocJob c) then createJobs ans cs (jobs ++ [c]) else (some (ans.callocJob c), jobs)

def runJobs (ans : Answers) (jobs : List Nat) : Result :=
  if jobs.all ans.created then
    ((jobs.map ans.preconnect).find? fun result => !accepted result).getD .success
  else .systemError

/-- The loop of `flagcxProxySaveOp`: what has been saved, and the result. -/
def saveOps (ans : Answers) : Nat → List (Nat × ProxyOp) → List (Nat × ProxyOp) × Result
  | _, [] => ([], .success)
  | n, op :: ops =>
    if accepted (ans.saveOp n) then (op :: (saveOps ans (n + 1) ops).1, (saveOps ans (n + 1) ops).2)
    else ([], ans.saveOp n)

def leave (cs : List Nat) (comms : Nat → HeteroComm) : Nat → HeteroComm := fun c =>
  if c ∈ cs then { comms c with inGroup := false } else comms c

def leavePreconnect (cs : List Nat) (comms : Nat → HeteroComm) : Nat → HeteroComm := fun c =>
  if c ∈ cs then { comms c with inPreconnect := false } else comms c

/-- `groupLaunch` from where the communicators of the group are collected. -/
def launchTasks (disable : Bool) (ans : Answers) (t : Thread) : Result × Thread :=
  match (t.groupCommHead.forM (collectComm disable ans)) ⟨t.comms, StepMap.empty, 0, 0, fun _ => 0⟩ with
  | .error e s => (e, { t with comms := s.comms })
  | .ok _ s =>
    let (saved, result) := saveOps ans 0 s.proxyOps.values
    let t := { t with comms := s.comms, saved := t.saved ++ saved }
    if ¬ accepted result then (result, t)
    else if s.launchStream ≠ 0 ∧ ¬ accepted ans.launchFunc then (ans.launchFunc, t)
    else (.success, { t with asyncJobs := [], comms := leave t.groupCommHead s.comms })

def groupLaunch (disable : Bool) (ans : Answers) (t : Thread) : Result × Thread :=
  match createJobs ans t.groupCommPreconnectHead t.asyncJobs with
  | (some e, jobs) => (e, { t with asyncJobs := jobs })
  | (none, jobs) =>
    let t := { t with
      asyncJobs := jobs
      groupCommPreconnectHead := []
      comms := leavePreconnect t.groupCommPreconnectHead t.comms }
    if runJobs ans jobs ≠ .success then (runJobs ans jobs, t) else launchTasks disable ans t

def groupCleanup (t : Thread) : Thread :=
  { t with
    asyncJobs := []
    comms := leave t.groupCommHead (leavePreconnect t.groupCommPreconnectHead t.comms) }

def groupResetJobState (t : Thread) : Thread := { t with groupCommHead := [], groupCommPreconnectHead := [] }

def groupStart (t : Thread) : Thread := { t with groupDepth := t.groupDepth + 1 }

def groupEnd (disable : Bool) (ans : Answers) (t : Thread) : Result × Thread :=
  let t := { t with groupDepth := t.groupDepth - 1 }
  if t.groupDepth < 0 then (.systemError, t)
  else if t.groupDepth = 0 ∧ (t.groupCommPreconnectHead ≠ [] ∨ t.groupCommHead ≠ []) then
    let (result, t) := groupLaunch disable ans t
    if accepted result then (result, groupResetJobState t) else (result, groupResetJobState (groupCleanup t))
  else (.success, t)

/-! ## Operations -/

/-- The arguments of a send or receive; the tag is not one of them. -/
structure OpArgs where
  comm : Nat
  peer : Nat
  channelId : Nat
  buff : Nat
  bytes : Nat
  dtype : Nat
  stream : Nat
  opId : Int
  step : Int
  deriving DecidableEq, Repr

def OpArgs.task (a : OpArgs) (queue : List TaskP2p) : TaskP2p :=
  ⟨a.buff, a.bytes, a.channelId, a.dtype, a.stream, a.opId, a.step,
    (queue.filter fun task => task.channelId = a.channelId).length⟩

def groupCommJoin (t : Thread) (c : Nat) : Thread :=
  if (t.comms c).inGroup then t
  else { t with
    comms := update t.comms c { t.comms c with inGroup := true }
    groupCommHead := c :: t.groupCommHead }

def groupCommPreconnect (t : Thread) (c : Nat) : Thread :=
  if (t.comms c).inPreconnect then t
  else { t with
    comms := update t.comms c { t.comms c with inPreconnect := true }
    groupCommPreconnectHead := c :: t.groupCommPreconnectHead }

def HeteroComm.enqueue (comm : HeteroComm) (pattern : Pattern) (a : OpArgs) : HeteroComm :=
  { comm.setQueue pattern a.peer (comm.queue pattern a.peer ++ [a.task (comm.queue pattern a.peer)]) with
    p2pOrderSteps := comm.p2pOrderSteps + if comm.queue pattern a.peer = [] then 1 else 0 }

def HeteroComm.register (comm : HeteroComm) (pattern : Pattern) (channelId peer : Nat) : HeteroComm :=
  { comm with
    registered := update comm.registered pattern fun ch p =>
      (ch = channelId ∧ p = peer) || comm.registered pattern ch p }

def register (t : Thread) (pattern : Pattern) (a : OpArgs) : Thread :=
  if (t.comms a.comm).registered pattern a.channelId a.peer then t
  else
    let t := groupCommPreconnect t a.comm
    { t with comms := update t.comms a.comm ((t.comms a.comm).register pattern a.channelId a.peer) }

def OpArgs.valid (a : OpArgs) (t : Thread) : Bool := a.peer < (t.comms a.comm).nRanks ∧ a.channelId < maxChannels

/-- The thread behind the operation and before the end of its group. -/
def enqueue (t : Thread) (pattern : Pattern) (a : OpArgs) : Thread :=
  groupCommJoin { t with comms := update t.comms a.comm ((t.comms a.comm).enqueue pattern a) } a.comm

/-- An operation in a group of its own. The result of the end of that group is dropped. -/
def heteroOp (pattern : Pattern) (disable : Bool) (ans : Answers) (a : OpArgs) (t : Thread) : Result × Thread :=
  if ¬ a.valid t then (.invalidArgument, t)
  else
    let t := register (groupStart t) pattern a
    if ¬ accepted ans.callocTask then (ans.callocTask, t)
    else (.success, (groupEnd disable ans (enqueue t pattern a)).2)

def heteroSend := heteroOp .send

def heteroRecv := heteroOp .recv

/-- A call of the thread. -/
inductive Action where
  | start
  | stop (ans : Answers)
  | send (ans : Answers) (args : OpArgs)
  | recv (ans : Answers) (args : OpArgs)

/-- What a call returns and leaves. -/
def step (disable : Bool) (t : Thread) : Action → Result × Thread
  | .start => (.success, groupStart t)
  | .stop ans => groupEnd disable ans t
  | .send ans args => heteroSend disable ans args t
  | .recv ans args => heteroRecv disable ans args t

end FlagCX.Group
