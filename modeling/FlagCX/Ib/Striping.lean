import FlagCX.Ib.Sending
import FlagCX.Ib.Reassembly
import FlagCX.Lib.Wire

/-!
# Striped writes over unreliable queue pairs

The work requests `flagcxIbucMultiSend` posts for a batch (`ibuc_adaptor.cc`), one message each: on every lane one
RDMA write a receive, then the write with immediate data that notifies the receiver. `flagcxIbucIrecv` counts one data
event for every lane it selects on its own side.

* `stripe`       : the bytes of a message that one lane writes, in `int` arithmetic.
* `Striped.step` : a connection whose notifications come over the wire. A post that stops part way leaves the receiver
  where the loss of the rest does.
-/

namespace FlagCX.Ib

open Lib

/-! ## Stripes -/

/-- The value an `int` operation leaves; C++ does not define it where it differs from its argument. -/
def toInt (x : Int) : Int := x.bmod (2 ^ 32)

def divUp (x y : Int) : Int := (toInt (x + y - 1)).tdiv y

/-- `chunkSize` of `flagcxIbucMultiSend` -/
def stripeSize (size nqps : Nat) : Int := toInt (divUp (divUp size nqps) 128 * 128)

/-- A lane's write: the offset its addresses have reached, and its `length`. -/
structure Stripe where
  offset : Int
  length : Int

/-- Lane `i` of `nqps`, behind `i` additions of the stripe size to the addresses and to the `int` `send.offset`. -/
def stripe (size nqps i : Nat) : Stripe where
  offset := i * stripeSize size nqps
  length := min (toInt (size - toInt (i * stripeSize size nqps))) (stripeSize size nqps)

/-- Neither `DIVUP` of the stripe size overflows. -/
def FitsInt (size nqps : Nat) : Prop := size + nqps ≤ 2 ^ 31 ∧ (size + nqps - 1) / nqps + 128 ≤ 2 ^ 31

instance (size nqps : Nat) : Decidable (FitsInt size nqps) := inferInstanceAs (Decidable (_ ∧ _))

/-! ## Lanes -/

namespace Lanes

variable (lanes : Lanes)

/-- Select and commit `n` lanes from stripe `i` on: their queue pairs and the cursor left. -/
def selectFrom (policy : LanePolicy) : Nat → Nat → Nat → List Nat × Nat
  | 0, _, qpIndex => ([], qpIndex)
  | n + 1, i, qpIndex =>
    let rest := selectFrom policy n (i + 1) (lanes.commit qpIndex policy)
    (lanes.select qpIndex policy i :: rest.1, rest.2)

def selectAll (policy : LanePolicy) (qpIndex : Nat) : List Nat × Nat := lanes.selectFrom policy lanes.count 0 qpIndex

end Lanes

/-- The two ends of a connection. Queue pair `q` of the sender is connected to queue pair `q` of the receiver;
`flagcxIbValidateDataLaneGeometry` compares the numbers of queue pairs and the split, not the numbers of devices. -/
structure Link where
  snd : Lanes
  rcv : Lanes
  nqps : snd.nqps = rcv.nqps
  splitDataOnQps : snd.splitDataOnQps = rcv.splitDataOnQps

/-! ## Messages -/

/-- What a work request does: write a stripe of a segment, or raise the notification at a place of `World.notes`. -/
inductive WrKind where
  | write (segment : Nat) (stripe : Stripe)
  | notify (note : Nat)

/-- A UC work request of a batch, on the queue pair of one of its lanes. -/
structure UcMsg where
  qp : Nat
  batch : Nat
  lane : Nat
  kind : WrKind

/-- The message writes byte `x` of a segment. -/
def UcMsg.Writes (m : UcMsg) (segment x : Nat) : Prop :=
  ∃ s : Stripe, m.kind = .write segment s ∧ s.offset ≤ x ∧ x < s.offset + s.length

/-- The notification that follows the write on its lane. -/
def UcMsg.AnnouncedBy (m n : UcMsg) : Prop :=
  m.qp = n.qp ∧ m.batch = n.batch ∧ m.lane = n.lane ∧ (∃ segment s, m.kind = .write segment s) ∧
    ∃ note, n.kind = .notify note

/-- The chain of lane `lane` of `nqps`; the notifications of the batch start at place `note`. -/
def laneMessages (b : Batch) (nqps note lane qp : Nat) : List UcMsg :=
  b.segments.mapIdx (fun r s => ⟨qp, b.index, lane, .write r (stripe s.size nqps lane)⟩) ++
    [⟨qp, b.index, lane, .notify (note + lane)⟩]

def batchMessages (b : Batch) (nqps note : Nat) : Nat → List Nat → List UcMsg
  | _, [] => []
  | lane, qp :: qps => laneMessages b nqps note lane qp ++ batchMessages b nqps note (lane + 1) qps

/-! ## The connection -/

/-- A connection, the lane cursors of its ends and its UC messages. -/
structure Striped where
  world : World
  sndQp : Nat
  rcvQp : Nat
  wire : Wire UcMsg

inductive UcAct where
  | irecv (buffers : List (Nat × (Nat → UInt8))) (policy : LanePolicy) (ctsDev : Dev)
  | send (sources : List Segment) (requests : List Nat) (policy : LanePolicy) (nowUs : Nat)
  | lose (j : Nat)
  | deliver (j : Nat) (env : Env)
  /-- A step of the connection that has nothing to do with lanes. -/
  | other (a : Act)

/-- The steps of `World` that `UcAct` has no form of its own for. -/
def Act.laneFree : Act → Bool
  | .irecv .. => false
  | .send .. => false
  | .notify .. => false
  | _ => true

namespace Striped

variable (link : Link)

def start (minRtoUs maxRetry : Nat) : Striped := ⟨World.start minRtoUs maxRetry, 0, 0, .empty⟩

def stepIrecv (u : Striped) (buffers : List (Nat × (Nat → UInt8))) (policy : LanePolicy) (ctsDev : Dev) : Option Striped :=
  let lanes := link.rcv.selectAll policy u.rcvQp
  (u.world.step (.irecv buffers (lanes.1.map link.rcv.devIndex) ctsDev)).map fun world =>
    { u with world := world, rcvQp := lanes.2 }

def stepSend (u : Striped) (sources : List Segment) (requests : List Nat) (policy : LanePolicy) (nowUs : Nat) :
    Option Striped :=
  let lanes := link.snd.selectAll policy u.sndQp
  match u.world.step (.send sources requests (lanes.1.map link.rcv.devIndex) nowUs) with
  | none => none
  | some world =>
    match world.batches[u.world.batches.length]? with
    | none => none
    | some b => some { u with
        world := world
        sndQp := lanes.2
        wire := u.wire.post (batchMessages b link.snd.count u.world.notes.length 0 lanes.1) }

def stepDeliver (u : Striped) (j : Nat) (env : Env) : Option Striped :=
  match u.wire.deliver UcMsg.qp j with
  | none => none
  | some (m, wire) =>
    match m.kind with
    | .write .. => some { u with wire := wire }
    | .notify note => (u.world.step (.notify note env)).map fun world => { u with world := world, wire := wire }

def step (u : Striped) : UcAct → Option Striped
  | .irecv buffers policy ctsDev => u.stepIrecv link buffers policy ctsDev
  | .send sources requests policy nowUs => u.stepSend link sources requests policy nowUs
  | .lose j => (u.wire.lose j).map fun wire => { u with wire := wire }
  | .deliver j env => u.stepDeliver j env
  | .other a => if a.laneFree then (u.world.step a).map fun world => { u with world := world } else none

/-- Byte `x` of a segment of a receive was written, by a UC write of its batch or by a retransmitted chunk. -/
def Written (u : Striped) (r : Request) (segment x : Nat) : Prop :=
  (∃ m ∈ u.wire.arrived, m.batch = r.index ∧ m.Writes segment x) ∨
    ∃ c ∈ r.copies, c.segment = segment ∧ c.offset ≤ x ∧ x < c.offset + c.size

/-- `flagcxIbucTest` reports the receive done. -/
def Done (u : Striped) (s : Nat) : Prop := (u.world.rcv.reqs s).type = .recv ∧ ∀ d, (u.world.rcv.reqs s).events d = 0

end Striped

end FlagCX.Ib
