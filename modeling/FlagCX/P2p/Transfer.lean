import FlagCX.Net.Request

/-!
# Transfers of the P2P engine (`p2p_engine_core.cc`)

A transfer drives a list of items through a backend: it posts queued items while credits last, polls the ones in flight
and completes each one on its scoreboard, its release group and its request core.

* The backend is code behind two callbacks. `Answers` holds what it answers during one call of `transferProgress`, which
  tests every item at most once and posts at most once.
* `log` is a history: what was asked of the backend with its answers, and the items completed. No function reads it.
* The item array is a function of the index, of which the indices below `size` are used. The release group of the
  transfer stands at pointer 0 of its tracker.
* The null-pointer checks of the entry points are left out, and so is `laneMask`, which no function here reads.
-/

namespace FlagCX.P2p

open Net Function List

/-! ## The state of a transfer -/

structure TransferOp where
  srcOffset : UInt64
  dstOffset : UInt64
  size : UInt64
  srcMr : Nat
  dstMr : Nat
  orderingKey : UInt64
  groupId : UInt64
  generation : UInt64
  sequence : UInt64
  submitFlags : UInt32
  deriving DecidableEq, Repr

/-- `flagcxP2pTransferItemState`. -/
inductive ItemState where
  | queued
  | inflight
  | complete
  deriving DecidableEq, Repr

structure TransferItem where
  op : TransferOp
  submit : SubmitContext
  request : Option Nat
  state : ItemState
  deriving DecidableEq, Repr

/-- The default constructor of `flagcxP2pTransferItem`. -/
def emptyItem : TransferItem :=
  { op := ⟨0, 0, 0, 0, 0, 0, 0, 0, 0, 1⟩, submit := ⟨0, 0, 0, 0, 0⟩, request := none, state := .queued }

structure PostResult where
  requested : Int32
  accepted : Int32
  result : Result
  deriving DecidableEq

/-- What one call of `backend.post` answers: its result, what it writes to `requests` and what it writes to `*post`. -/
structure PostAnswer where
  callResult : Result
  requests : Nat → Option Nat
  post : PostResult

/-- What the backend answers during one call: the result and `*done` for each item tested, and the answer to a post. -/
structure Answers where
  test : Nat → Result × Bool
  post : PostAnswer

/-- The history of a transfer. -/
inductive Event where
  | tested (item : Nat) (result : Result) (done : Bool)
  | posted (ops : List TransferOp) (answer : PostAnswer)
  | completed (item : Nat) (result : Result)

structure Transfer where
  items : Nat → TransferItem
  size : UInt32
  tracker : Tracker
  credit : Credit
  request : RequestCore
  maxPostBatch : UInt32
  submitted : UInt32
  completed : UInt32
  terminalResult : Result
  initialized : Bool
  log : List Event

namespace Transfer

def releaseGroup (t : Transfer) : ReleaseGroup := t.tracker.groups 0

def scoreboard (t : Transfer) : CompletionScoreboard := t.tracker.scoreboard

def setItem (t : Transfer) (index : Nat) (item : TransferItem) : Transfer := { t with items := update t.items index item }

def note (t : Transfer) (e : Event) : Transfer := { t with log := t.log ++ [e] }

end Transfer

/-- `if (result != flagcxSuccess) return result;` between two calls. -/
def andThen (out : Result × Transfer) (next : Transfer → Result × Transfer) : Result × Transfer :=
  if out.1 = .success then next out.2 else out

@[simp] theorem andThen_success (t : Transfer) (next : Transfer → Result × Transfer) :
    andThen (.success, t) next = next t := rfl

/-! ## Completing items -/

def recordTerminal (t : Transfer) (result : Result) : Transfer :=
  if result ≠ .success ∧ result ≠ .inProgress ∧ t.terminalResult = .success then { t with terminalResult := result }
  else t

/-- The end of `completeItem`, after its three counters have moved. -/
def finishItem (t : Transfer) (index : Nat) (result : Result) : Transfer :=
  let t := t.setItem index { t.items index with request := none, state := .complete }
  recordTerminal ({ t with completed := t.completed + 1 }.note (.completed index result)) result

def completeItem (t : Transfer) (index : Nat) (result : Result) : Result × Transfer :=
  if t.size.toNat ≤ index then (.invalidArgument, t)
  else if (t.items index).state = .complete then (.invalidArgument, t)
  else
    let credit := if (t.items index).state = .inflight then creditRelease t.credit 1 else (.success, t.credit)
    andThen (credit.1, { t with credit := credit.2 }) fun t =>
      let track := trackCompletion t.tracker (t.items index).submit result
      andThen (track.1, { t with tracker := track.2.2 }) fun t =>
        let request := requestCoreComplete t.request 1 result
        andThen (request.1, { t with request := request.2 }) fun t => (.success, finishItem t index result)

/-- The loop of `failQueued` over the indices still to visit. -/
def failQueuedFrom (result : Result) : List Nat → Transfer → Result × Transfer
  | [], t => (.success, t)
  | i :: is, t =>
    if (t.items i).state ≠ .queued then failQueuedFrom result is t
    else andThen (completeItem t i result) (failQueuedFrom result is)

def failQueued (t : Transfer) (result : Result) : Result × Transfer :=
  failQueuedFrom result (range t.size.toNat) (recordTerminal t result)

/-! ## Polling -/

/-- The result a done request is completed with: `flagcxInProgress` is normalized to a contract error. -/
def normalizeDone (testResult : Result) : Result :=
  if testResult = .inProgress then .internalError else testResult

/-- The body of the loop of `pollInflight`. -/
def pollItem (t : Transfer) (index : Nat) (answer : Result × Bool) : Result × Transfer :=
  if (t.items index).state ≠ .inflight then (.success, t)
  else
    let t := t.note (.tested index answer.1 answer.2)
    if answer.2 = false then
      if answer.1 ≠ .success ∧ answer.1 ≠ .inProgress then failQueued (recordTerminal t answer.1) answer.1
      else (.success, t)
    else
      let testResult := normalizeDone answer.1
      if testResult ≠ .success then
        andThen (completeItem t index testResult) fun t => failQueued t testResult
      else completeItem t index .success

/-- The loop of `pollInflight` over the indices still to visit. -/
def pollInflightFrom (test : Nat → Result × Bool) : List Nat → Transfer → Result × Transfer
  | [], t => (.success, t)
  | i :: is, t => andThen (pollItem t i (test i)) (pollInflightFrom test is)

def pollInflight (t : Transfer) (test : Nat → Result × Bool) : Result × Transfer :=
  pollInflightFrom test (range t.size.toNat) t

/-! ## Posting -/

def queuedIndices (t : Transfer) (limit : Nat) : List Nat :=
  ((range t.size.toNat).filter fun i => (t.items i).state = .queued).take limit

def acceptItems (requests : Nat → Option Nat) : Nat → List Nat → Transfer → Result × Transfer
  | _, [], t => (.success, t)
  | i, index :: rest, t =>
    let t := t.setItem index { t.items index with request := requests i, state := .inflight }
    let t := { t with submitted := t.submitted + 1 }
    if requests i = none then
      andThen (completeItem t index .success) (acceptItems requests (i + 1) rest)
    else acceptItems requests (i + 1) rest t

/-- The checks `postQueued` makes on a `*post` that the backend filled. -/
def malformedPost (requested : UInt32) (post : PostResult) : Prop :=
  post.requested ≠ requested.toInt32 ∨ post.accepted < 0 ∨ requested.toInt32 < post.accepted

instance (requested : UInt32) (post : PostResult) : Decidable (malformedPost requested post) :=
  inferInstanceAs (Decidable (_ ∨ _ ∨ _))

/-- `postQueued` once `backend.post` has answered and holds the credits of `indices`. -/
def settlePost (t : Transfer) (indices : List Nat) (requested : UInt32) (answer : PostAnswer) : Result × Transfer :=
  if answer.callResult ≠ .success then
    let t := { t with credit := (creditRelease t.credit requested).2 }
    if answer.callResult = .inProgress then (.success, t) else failQueued t answer.callResult
  else if malformedPost requested answer.post then
    failQueued { t with credit := (creditRelease t.credit requested).2 } .internalError
  else
    let accepted := answer.post.accepted.toUInt32
    let credit := if accepted < requested then creditRelease t.credit (requested - accepted) else (.success, t.credit)
    andThen (credit.1, { t with credit := credit.2 }) fun t =>
      andThen (acceptItems answer.requests 0 (indices.take accepted.toNat) t) fun t =>
        if answer.post.result ≠ .success ∧ answer.post.result ≠ .inProgress then failQueued t answer.post.result
        else (.success, t)

def postQueued (t : Transfer) (answer : PostAnswer) : Result × Transfer :=
  if t.terminalResult ≠ .success then (.success, t)
  else
    match creditAvailable t.credit with
    | .error e => (e, t)
    | .ok available =>
      if available = 0 then (.success, t)
      else
        let indices := queuedIndices t (min available t.maxPostBatch).toNat
        if indices = [] then (.success, t)
        else
          let requested := UInt32.ofNat indices.length
          let credit := creditAcquire t.credit requested
          if credit.1 ≠ .success then (if credit.1 = .inProgress then .success else credit.1, t)
          else
            let ops := indices.map fun i => (t.items i).op
            settlePost ({ t with credit := credit.2 }.note (.posted ops answer)) indices requested answer

/-! ## The entry points -/

structure TransferStatus where
  requested : UInt32
  submitted : UInt32
  completed : UInt32
  retired : UInt32
  pending : Nat
  inFlight : UInt32
  done : Bool
  releaseAllowed : Bool
  result : Result
  deriving DecidableEq

/-- `status->result`: the terminal result, or the first of the three trackers' errors that counts. -/
def statusResult (t : Transfer) (requestDone groupDone : Bool) (requestResult groupResult : Result) : Result :=
  if t.terminalResult ≠ .success then t.terminalResult
  else if requestDone = true ∧ requestResult ≠ .success then requestResult
  else if groupDone = true ∧ groupResult ≠ .success then groupResult
  else t.scoreboard.firstError

def transferQuery (t : Transfer) : Except Result TransferStatus :=
  if t.initialized = false then .error .invalidArgument
  -- `flagcxNetCompletionScoreboardQuery` fails on a scoreboard without entries only
  else if t.scoreboard.capacity = 0 then .error .invalidArgument
  else
    let request := requestCoreTest t.request
    let requestDone := request.2.getD false
    let group := releaseGroupTest t.releaseGroup
    match creditAvailable t.credit with
    | .error e => .error e
    | .ok available =>
      let done := requestDone && group.done && decide (t.scoreboard.inFlight = 0)
      let result := statusResult t requestDone group.done request.1 group.result
      .ok {
        requested := t.size, submitted := t.submitted, completed := t.completed,
        retired := t.scoreboard.nextSequence.toUInt32, pending := t.scoreboard.inFlight,
        inFlight := t.credit.capacity - available, done := done, result := result,
        releaseAllowed := if done = true ∧ result = .success then group.releaseAllowed else false }

/-- What `flagcxP2pTransferProgress` returns, writes to `*status` and leaves of the transfer. -/
structure ProgressOut where
  result : Result
  status : Option TransferStatus
  transfer : Transfer

def transferProgress (t : Transfer) (answers : Answers) : ProgressOut :=
  if t.initialized = false then ⟨.invalidArgument, none, t⟩
  else
    let out := andThen (pollInflight t answers.test) fun t => postQueued t answers.post
    let t := if out.1 ≠ .success then recordTerminal out.2 out.1 else out.2
    match transferQuery t with
    | .error e => ⟨if out.1 ≠ .success then out.1 else e, none, t⟩
    | .ok status => ⟨out.1, some status, t⟩

/-- A sequence of calls of `flagcxP2pTransferProgress`. -/
def run (t : Transfer) : List Answers → Transfer
  | [] => t
  | a :: as => run (transferProgress t a).transfer as

/-- The item `flagcxP2pTransferInit` stores for an operation. -/
def initItem (ops : Nat → TransferOp) (groupId generation : UInt64) (i : Nat) : TransferItem :=
  { op := { ops i with groupId := groupId, generation := generation, sequence := UInt64.ofNat i },
    submit := {
      orderingKey := (ops i).orderingKey, groupId := groupId, generation := generation, sequence := UInt64.ofNat i,
      flags := (ops i).submitFlags },
    request := none, state := .queued }

def submitItems (ops : Nat → TransferOp) (groupId generation : UInt64) : List Nat → Transfer → Result × Transfer
  | [], t => (.success, t)
  | i :: is, t =>
    let t := t.setItem i (initItem ops groupId generation i)
    let track := trackSubmit t.tracker (t.items i).submit (some 0)
    andThen (track.1, { t with tracker := track.2 }) (submitItems ops groupId generation is)

def completeEmpty : List Nat → Transfer → Result × Transfer
  | [], t => (.success, t)
  | i :: is, t =>
    if (t.items i).op.size = 0 then andThen (completeItem t i .success) (completeEmpty is)
    else completeEmpty is t

def transferInit (t : Transfer) (ops : Nat → TransferOp) (count maxInFlight maxPostBatch : UInt32)
    (groupId generation : UInt64) : Result × Transfer :=
  if count = 0 ∨ maxInFlight = 0 ∨ maxPostBatch = 0 ∨ groupId = 0 ∨ t.initialized = true then (.invalidArgument, t)
  else
    let t := { t with
      items := fun _ => emptyItem, size := count, maxPostBatch := maxPostBatch, submitted := 0, completed := 0,
      terminalResult := .success, log := [] }
    match creditInit maxInFlight with
    | .error e => (e, t)
    | .ok credit =>
      let acquired := requestCoreAcquire requestCoreInit
      andThen (acquired.1, { t with credit := credit, request := acquired.2 }) fun t =>
        let added := requestCoreAddPending t.request count
        andThen (added.1, { t with request := added.2 }) fun t =>
          match releaseGroupInit groupId generation with
          | .error e => (e, t)
          | .ok group =>
            let t := { t with tracker := { t.tracker with groups := update t.tracker.groups 0 group } }
            match CompletionScoreboard.init count generation 0 with
            | .error e => (e, t)
            | .ok scoreboard =>
              let t := { t with tracker := { t.tracker with scoreboard := scoreboard } }
              andThen (submitItems ops groupId generation (range count.toNat) t) fun t =>
                let sealing := releaseGroupSeal t.releaseGroup
                let tracker := { t.tracker with groups := update t.tracker.groups 0 sealing.2 }
                andThen (sealing.1, { t with tracker := tracker }) fun t =>
                  completeEmpty (range count.toNat) { t with initialized := true }

end FlagCX.P2p
