import FlagCX.Result
import FlagCX.Lib.Dag

/-!
# The UniRunner DAG: data model

The dependency graph a rank executes for one collective, as `flagcxUniRunnerState` holds it after a builder ran.
Buffer addresses and counts are in elements (the source multiplies every offset by `typeSize`).

* `DagNode`, `RunnerState` : nodes with their parent counters and child lists, ready queues, pending counter.
* `forNodes`               : the builders' loops over `globalNodeIdx++`.
* `RunnerState.WellFormed` : child numbers, parent counters, ready queues and pending counter agree with the edges.
-/

namespace FlagCX.UniRunner

/-! ## Nodes -/

/-- `flagcxDevicePrim`, the two primitives the builders use. -/
inductive DevicePrim where
  | send
  | recv
deriving DecidableEq, Repr

/-- `uniRunnerP2pOpData` -/
structure P2pOpData where
  type : DevicePrim
  peerRank : Nat
  addr : Nat
  count : Nat
deriving DecidableEq, Repr

/-- `uniRunnerRedNodeData`: what the reduce trigger is filled with. -/
structure RedNodeData where
  input1 : Nat
  input2 : Nat
  output : Nat
  count : Nat
deriving DecidableEq, Repr

/-- `uniRunnerCpyNodeData` -/
structure CpyNodeData where
  src : Nat
  dst : Nat
  count : Nat
deriving DecidableEq, Repr

inductive NodeData where
  | p2p (ops : List P2pOpData)
  | red (data : RedNodeData)
  | cpy (data : CpyNodeData)
deriving DecidableEq, Repr

/-- `uniRunnerDagNode`; `numChildren` is the length of `children`. -/
structure DagNode where
  nodeData : NodeData
  numParents : Nat
  children : List Nat
deriving DecidableEq, Repr

/-- The fields of `flagcxUniRunnerState` a builder sets; the queues hold node numbers. -/
structure RunnerState where
  dagNodes : List DagNode
  numDagNodes : Nat
  p2pReadyQueue : List Nat
  redReadyQueue : List Nat
  numPendingNodes : Int
deriving DecidableEq, Repr

def RunnerState.empty : RunnerState := ⟨[], 0, [], [], 0⟩

/-! ## Builder loops -/

/-- A node as a builder leaves it: either enqueued at once, or counted in `numPendingNodes`. -/
structure Emitted where
  node : DagNode
  ready : Bool
deriving DecidableEq, Repr

/-- `for (int k = 0; k < n; k++)` around statements that take their node numbers from `globalNodeIdx++`. -/
def forNodes (body : Nat → Nat → List Emitted) (globalNodeIdx : Nat) : Nat → List Emitted
  | 0 => []
  | n + 1 =>
    let before := forNodes body globalNodeIdx n
    before ++ body n (globalNodeIdx + before.length)

/-- The numbers of the nodes enqueued on creation, in the order of creation. -/
def readyIndices (es : List Emitted) : List Nat := (List.range es.length).filter fun i => es[i]?.any (·.ready)

/-- The state after a builder emitted `es`; every builder enqueues transfers only. -/
def RunnerState.ofEmitted (numNodes : Nat) (es : List Emitted) : RunnerState where
  dagNodes := es.map (·.node)
  numDagNodes := numNodes
  p2pReadyQueue := readyIndices es
  redReadyQueue := []
  numPendingNodes := es.countP (!·.ready)

/-! ## Well-formedness -/

namespace RunnerState

variable (st : RunnerState)

def children : List (List Nat) := st.dagNodes.map (·.children)

def readyNodes : List Nat := st.p2pReadyQueue ++ st.redReadyQueue

/-- A DAG that can be executed: child numbers in range, parent counters equal to the incoming edges, no cycle, the parentless
nodes queued once each and all others pending. -/
structure WellFormed : Prop where
  length_eq : st.dagNodes.length = st.numDagNodes
  child_lt : ∀ node ∈ st.dagNodes, ∀ c ∈ node.children, c < st.numDagNodes
  numParents_eq : ∀ v node, st.dagNodes[v]? = some node → node.numParents = Dag.inEdges st.children v
  acyclic : Dag.Acyclic st.children
  ready_nodup : st.readyNodes.Nodup
  mem_ready : ∀ v, v ∈ st.readyNodes ↔ ∃ node, st.dagNodes[v]? = some node ∧ node.numParents = 0
  pending_eq : st.numPendingNodes = st.dagNodes.countP fun node => node.numParents ≠ 0

end RunnerState

end FlagCX.UniRunner
