import FlagCX.DeviceFifo.Trigger
import FlagCX.Lib.Guarded
import FlagCX.Lib.Window
import FlagCX.Result

/-!
# The device FIFO

The words of one trigger FIFO and the programs that touch them, one atomic access at a time
(`flagcx/adaptor/include/device_api/default_comm_traits.h`, `fifo_producer_gate.h`, `flagcx/core/flagcx_kernel_host.cc`,
`flagcx/core/kernel_proxy_transport.cc`).

* Device threads call `fifoEnqueue`: the producer gate, the reservation, the wait for space, three stores.
* Others call `fifoFlush`: a snapshot of `produced`, then a loop on `completed`.
* One host worker takes triggers by `dequeue`, advances `consumed` and `completed`, stores the terminal status, and at the
  end closes the gate and calls `flagcxKernelProxyFinalizeTerminalFifo`.

`produced`, `consumed`, `completed` and the producer state are words of `width` bits and wrap. Next to them the state
keeps what the words cannot tell: the triggers in the order of their reservations, which are published, and what was
taken.
-/

namespace FlagCX.DeviceFifo
open Function

/-- The width of a `CompletionWord` in bits, the word `flagcxFifoIdxCapacity`, and the number of producer threads. -/
structure Config where
  width : Nat
  capacity : Nat
  threads : Nat

namespace Config
variable (c : Config)

def values : Nat := 2 ^ c.width

def word (n : Nat) : Nat := n % c.values

/-- `(CompletionWord)(a - b)` -/
def diff (a b : Nat) : Nat := (a + (c.values - b % c.values)) % c.values

/-- `flagcxFifoProducerClosedMask` -/
def closedMask : Nat := 2 ^ (c.width - 1)

/-- `observed & flagcxFifoProducerClosedMask` -/
def isClosed (state : Nat) : Bool := state.testBit (c.width - 1)

/-- `state & flagcxFifoProducerActiveMask` -/
def active (state : Nat) : Nat := state % 2 ^ (c.width - 1)

/-- `CompletionStorage::before`: the signed difference is negative. -/
def before (a b : Nat) : Bool := (c.diff a b).testBit (c.width - 1)

/-- The slot of a word: `(uint64_t)mySlot % capacity`. -/
def slot (word : Nat) : Nat := word % c.capacity

end Config

/-! ## The parties -/

/-- Where a call of `fifoEnqueue` stands. -/
inductive ProducerPc where
  | idle
  /-- before the `fetchAdd` of `flagcxFifoProducerTryEnter` -/
  | entering
  /-- the gate was closed: before its `fetchSub` -/
  | rejected
  /-- before the load of the terminal status to return -/
  | refused
  /-- before the `fetchAdd` on `produced` -/
  | entered
  /-- before the load of `consumed` in the loop condition -/
  | waiting
  /-- no space: before the load of the terminal status in the loop -/
  | full
  /-- space: before the load of the terminal status behind the loop -/
  | spaced
  | writingFst
  | writingSnd
  | writingTrd
  /-- before the `fetchSub` of `flagcxFifoProducerLeave` -/
  | leaving (r : Result)
  | returned (r : Result)
  deriving DecidableEq, Repr

def ProducerPc.free : ProducerPc → Bool
  | .idle | .returned _ => true
  | _ => false

/-- A device thread: its place, the words it is called with, `mySlot`, and the number of its reservation. -/
structure Producer where
  pc : ProducerPc
  trigger : Trigger
  mySlot : Nat
  seq : Nat
  deriving DecidableEq, Repr

/-- Where a call of `fifoFlush` stands. -/
inductive FlusherPc where
  | idle
  /-- before the load of the terminal status -/
  | starting
  /-- before the load of `produced` -/
  | loading
  /-- before the load of `completed` in the loop condition -/
  | polling
  /-- before the load of the terminal status in the loop -/
  | spinning
  | returned (r : Result)
  deriving DecidableEq, Repr

/-- No call is under way. -/
def FlusherPc.free : FlusherPc → Bool
  | .idle | .returned _ => true
  | _ => false

/-- A flushing thread: its place, the word `snapshot`, and how many reservations it stands for. -/
structure Flusher where
  pc : FlusherPc
  snapshot : Nat
  upTo : Nat
  deriving DecidableEq, Repr

/-- Where the host worker stands. -/
inductive Host where
  | idle
  /-- `dequeue` has seen `prod != cons` -/
  | looked
  /-- `dequeue` has seen the valid bit -/
  | valid (trd : Word)
  | readFst (fst trd : Word)
  | readSnd (fst snd trd : Word)
  /-- `dequeue` has returned the trigger, `consumed` is not advanced yet -/
  | pending (t : Trigger)
  /-- in the loop of `flagcxKernelProxyCloseFifoProducerGate` -/
  | closing
  | closed
  /-- `flagcxKernelProxyFinalizeTerminalFifo` has found the gate closed and nobody active -/
  | checked
  /-- and has loaded `produced` -/
  | loaded (produced count : Nat)
  /-- and has stored `consumed` -/
  | consumedSet (produced count : Nat)
  | finalized (r : Result)
  deriving DecidableEq, Repr

/-- The worker is between two calls of its loop, with or without a trigger at hand. -/
def Host.looping : Host → Bool
  | .idle | .pending _ => true
  | _ => false

/-- The worker polls its transport: in its loop, or behind the closed gate. -/
def Host.working : Host → Bool
  | .idle | .pending _ | .closed => true
  | _ => false

structure State where
  producerState : Nat
  produced : Nat
  consumed : Nat
  completed : Nat
  terminal : Result
  slots : Nat → Trigger
  producers : Nat → Producer
  flushers : Nat → Flusher
  host : Host
  /-- the triggers by the number of their reservation -/
  reserved : List Trigger
  /-- the reservations whose last word is stored -/
  published : List Nat
  /-- what `dequeue` has returned -/
  delivered : List Trigger
  consumedCount : Nat
  completedCount : Nat

def State.init : State where
  producerState := 0
  produced := 0
  consumed := 0
  completed := 0
  terminal := .success
  slots := fun _ => ⟨0, 0, 0⟩
  producers := fun _ => ⟨.idle, ⟨0, 0, 0⟩, 0, 0⟩
  flushers := fun _ => ⟨.idle, 0, 0⟩
  host := .idle
  reserved := []
  published := []
  delivered := []
  consumedCount := 0
  completedCount := 0

/-- The next access of the host worker. -/
inductive HostAction where
  | dequeue
  | consume
  | advance (k : Nat)
  | storeTerminal (r : Result)
  | close
  | await
  | finalize
  deriving DecidableEq, Repr

inductive Action where
  | enqueue (p : Nat) (t : Trigger)
  | producer (p : Nat)
  | flush (f : Nat)
  | flusher (f : Nat)
  | host (a : HostAction)
  deriving DecidableEq, Repr

/-! ## Steps -/

namespace State
variable (c : Config) (s : State)

def setProducer (p : Nat) (x : Producer) : State := { s with producers := update s.producers p x }

def setFlusher (f : Nat) (x : Flusher) : State := { s with flushers := update s.flushers f x }

def setSlot (i : Nat) (t : Trigger) : State := { s with slots := update s.slots i t }

@[simp] theorem setProducer_self (p : Nat) (x : Producer) : (s.setProducer p x).producers p = x := update_self ..

theorem setProducer_of_ne {p q : Nat} (h : q ≠ p) (x : Producer) : (s.setProducer p x).producers q = s.producers q :=
  update_of_ne h ..

@[simp] theorem setFlusher_self (f : Nat) (x : Flusher) : (s.setFlusher f x).flushers f = x := update_self ..

theorem setFlusher_of_ne {f g : Nat} (h : g ≠ f) (x : Flusher) : (s.setFlusher f x).flushers g = s.flushers g :=
  update_of_ne h ..

/-- `Atomic::fetchAdd(producerState, 1)` -/
def arrive : State := { s with producerState := c.word (s.producerState + 1) }

/-- `Atomic::fetchSub(producerState, 1)` -/
def depart : State := { s with producerState := c.diff s.producerState 1 }

/-- `Atomic::fetchAdd(produced, 1)` -/
def reserve (t : Trigger) : State := { s with produced := c.word (s.produced + 1), reserved := s.reserved ++ [t] }

/-- The next access of thread `p` in `fifoEnqueue`. -/
def producerStep (p : Nat) : Option State :=
  let x := s.producers p
  match x.pc with
  | .idle => none
  | .entering => some ((s.arrive c).setProducer p { x with pc := if c.isClosed s.producerState then .rejected else .entered })
  | .rejected => some ((s.depart c).setProducer p { x with pc := .refused })
  | .refused =>
    some (s.setProducer p { x with pc := .returned (if s.terminal = .success then .internalError else s.terminal) })
  | .entered =>
    some ((s.reserve c x.trigger).setProducer p { x with pc := .waiting, mySlot := s.produced, seq := s.reserved.length })
  | .waiting =>
    some (s.setProducer p { x with
      pc := if c.word c.capacity ≤ c.diff x.mySlot s.consumed then .full else .spaced })
  | .full => some (s.setProducer p { x with pc := if s.terminal ≠ .success then .leaving s.terminal else .waiting })
  | .spaced => some (s.setProducer p { x with pc := if s.terminal ≠ .success then .leaving s.terminal else .writingFst })
  | .writingFst =>
    let i := c.slot x.mySlot
    some ((s.setSlot i { s.slots i with fst := x.trigger.fst }).setProducer p { x with pc := .writingSnd })
  | .writingSnd =>
    let i := c.slot x.mySlot
    some ((s.setSlot i { s.slots i with snd := x.trigger.snd }).setProducer p { x with pc := .writingTrd })
  | .writingTrd =>
    let i := c.slot x.mySlot
    some { (s.setSlot i { s.slots i with trd := x.trigger.publish.trd }).setProducer p { x with pc := .leaving .success } with
      published := x.seq :: s.published }
  | .leaving r => some ((s.depart c).setProducer p { x with pc := .returned r })
  | .returned _ => none

/-- The next access of thread `f` in `fifoFlush`. -/
def flusherStep (f : Nat) : Option State :=
  let x := s.flushers f
  match x.pc with
  | .idle => none
  | .starting => some (s.setFlusher f { x with pc := if s.terminal ≠ .success then .returned s.terminal else .loading })
  | .loading => some (s.setFlusher f { pc := .polling, snapshot := s.produced, upTo := s.reserved.length })
  | .polling =>
    some (s.setFlusher f { x with pc := if c.before s.completed x.snapshot then .spinning else .returned .success })
  | .spinning => some (s.setFlusher f { x with pc := if s.terminal ≠ .success then .returned s.terminal else .polling })
  | .returned _ => none

/-- The next access of `dequeue`. -/
def dequeueStep : Option State :=
  let i := c.slot s.consumed
  match s.host with
  | .idle => some (if s.produced = s.consumed then s else { s with host := .looked })
  | .looked =>
    let trd := (s.slots i).trd
    some { s with host := if trd &&& validField.place 1#64 = 0 then .idle else .valid trd }
  | .valid trd => some { s with host := .readFst (s.slots i).fst trd }
  | .readFst fst trd => some { s with host := .readSnd fst (s.slots i).snd trd }
  | .readSnd fst snd trd =>
    let t : Trigger := (Trigger.mk fst snd trd).taken
    some { s.setSlot i { s.slots i with trd := 0 } with host := .pending t, delivered := s.delivered ++ [t] }
  | _ => none

/-- The next access of `flagcxKernelProxyFinalizeTerminalFifo`. -/
def finalizeStep : Option State :=
  match s.host with
  | .closed =>
    some { s with host :=
      if c.isClosed s.producerState ∧ c.active s.producerState = 0 then .checked else .finalized .invalidUsage }
  | .checked => some { s with host := .loaded s.produced s.reserved.length }
  | .loaded produced count =>
    some { s with consumed := produced, consumedCount := count, host := .consumedSet produced count }
  | .consumedSet produced count =>
    some { s with completed := produced, completedCount := count, host := .finalized .success }
  | _ => none

def hostStep : HostAction → Option State
  | .dequeue => s.dequeueStep c
  | .consume =>
    match s.host with
    | .pending _ =>
      some { s with consumed := c.word (s.consumed + 1), consumedCount := s.consumedCount + 1, host := .idle }
    | _ => none
  | .advance k =>
    if s.host.working then some { s with completed := c.word (s.completed + k), completedCount := s.completedCount + k }
    else none
  | .storeTerminal r =>
    -- `flagcxKernelProxyStoreLocalTerminal`
    if s.host.working ∧ r ≠ .success ∧ r ≠ .inProgress then some { s with terminal := r } else none
  | .close =>
    if s.host.looping then
      some { s with producerState := s.producerState ||| c.closedMask, host := .closing }
    else none
  | .await =>
    match s.host with
    | .closing => some { s with host := if c.active s.producerState = 0 then .closed else .closing }
    | _ => none
  | .finalize => s.finalizeStep c

def step : Action → Option State
  | .enqueue p t =>
    if p < c.threads ∧ (s.producers p).pc.free then
      some (s.setProducer p { s.producers p with pc := .entering, trigger := t })
    else none
  | .producer p => s.producerStep c p
  | .flush f =>
    if (s.flushers f).pc.free then
      some (s.setFlusher f { s.flushers f with pc := .starting })
    else none
  | .flusher f => s.flusherStep c f
  | .host a => s.hostStep c a

end State

end FlagCX.DeviceFifo
