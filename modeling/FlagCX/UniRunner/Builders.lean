import FlagCX.UniRunner.Dag
import FlagCX.Lib.Partition
import Mathlib.Data.Nat.Size

/-!
# The UniRunner DAG builders

`initUniRunnerStateRingAG`, `RingAR`, `SlicedAR`, `RingRS` and `TreeRed` (`runner/uni_runner_impl.cc`), with their
loops, node numbers, parent counters and child lists. Ranks over a buffer, slices over a chunk and reduce slices over
a slice all follow `partCount` and `partOffset`. A division by zero slices only feeds addresses and counts and does
not change the graph.
-/

namespace FlagCX.UniRunner

/-- The fields of `flagcxComm` the builders read. -/
structure Comm where
  rank : Nat
  nranks : Nat
deriving DecidableEq, Repr

namespace Comm

variable (comm : Comm)

def nextRank : Nat := (comm.rank + 1) % comm.nranks

def prevRank : Nat := (comm.rank + comm.nranks - 1) % comm.nranks

end Comm

/-- The tuning parameters of the runner. `autoRedSlices` stands for the value of the floating-point expression
`ceil((float)count / nranks / uniRunnerNSlices / uniRunnerRedSliceSize)`. -/
structure Config where
  uniRunnerNSlices : Nat
  uniRunnerNRedSlices : Nat
  uniRunnerRedSliceSize : Nat
  autoRedSlices : Nat
deriving DecidableEq, Repr

/-- `uniRunnerNRedSlices` after the automatic setting. -/
def Config.numRedSlices (cfg : Config) (count : Nat) : Nat :=
  if cfg.uniRunnerNRedSlices = 0 then
    if count = 0 ∨ cfg.uniRunnerRedSliceSize = 0 then 1 else cfg.autoRedSlices
  else cfg.uniRunnerNRedSlices

theorem Config.numRedSlices_pos (S R count : Nat) (hR : 0 < R) : 0 < (Config.mk S R 0 0).numRedSlices count := by
  unfold Config.numRedSlices
  rw [if_neg (pos_iff_ne_zero.1 hR)]
  exact hR

/-- The user's buffers (element addresses) and the element count of a collective. -/
structure Buffers where
  sendbuff : Nat
  recvbuff : Nat
  scratchbuff : Nat
  count : Nat
deriving DecidableEq, Repr

/-- The branch `nranks == 1` of every builder: a local copy unless in place. -/
def singleRank (b : Buffers) : RunnerState :=
  if 0 < b.count ∧ b.sendbuff ≠ b.recvbuff then
    { dagNodes := [⟨.cpy ⟨b.sendbuff, b.recvbuff, b.count⟩, 0, []⟩]
      numDagNodes := 1, p2pReadyQueue := [0], redReadyQueue := [], numPendingNodes := 0 }
  else .empty

/-- The checks on `nranks` that come before the general case. -/
def withRanks (comm : Comm) (b : Buffers) (build : RunnerState) : Except Result RunnerState :=
  if comm.nranks < 1 then .error .invalidArgument
  else if comm.nranks = 1 then .ok (singleRank b)
  else .ok build

/-! ## Rings -/

section Ring

variable (comm : Comm) (b : Buffers) (numSlices : Nat)

/-- The offset of slice `s` of chunk `c`, chunks and slices being as even as possible. -/
def sliceOffset (c s : Nat) : Nat :=
  partOffset b.count comm.nranks c + partOffset (partCount b.count comm.nranks c) numSlices s

def sliceCount (c s : Nat) : Nat := partCount (partCount b.count comm.nranks c) numSlices s

/-- The send of a ring step: slice `s` of `txChunk`, from the buffer at `src`, to the next rank. -/
def sendOp (src txChunk s : Nat) : P2pOpData :=
  ⟨.send, comm.nextRank, src + sliceOffset comm b numSlices txChunk s, sliceCount comm b numSlices txChunk s⟩

/-- The receive of a ring step: slice `s` of `rxChunk`, into `recvbuff`, from the previous rank. -/
def recvOp (rxChunk s : Nat) : P2pOpData :=
  ⟨.recv, comm.prevRank, b.recvbuff + sliceOffset comm b numSlices rxChunk s, sliceCount comm b numSlices rxChunk s⟩

/-- First step sends from `sendbuff`, others from `recvbuff`. -/
def srcBase (i : Nat) : Nat := if i = 0 then b.sendbuff else b.recvbuff

/-- Step `i` of slice `s` of `initUniRunnerStateRingAG`; nothing is enqueued inside the loops. -/
def ringAGStep (nodesPerSlice numNodes s i currIdx : Nat) : List Emitted :=
  let txChunk := (comm.rank + comm.nranks - i) % comm.nranks
  let rxChunk := (comm.rank + comm.nranks - i - 1) % comm.nranks
  [⟨{ nodeData := .p2p [sendOp comm b numSlices (srcBase b i) txChunk s, recvOp comm b numSlices rxChunk s]
      numParents := if currIdx = 0 then 0 else 1
      children :=
        if s = numSlices - 1 then if currIdx ≠ numNodes - 1 then [i + 1] else []
        else [currIdx + nodesPerSlice] }, false⟩]

def ringAGChain : List Emitted :=
  let nodesPerSlice := comm.nranks - 1
  let numNodes := numSlices * nodesPerSlice
  forNodes (fun s sliceNodeBaseIdx =>
    forNodes (ringAGStep comm b numSlices nodesPerSlice numNodes s) sliceNodeBaseIdx (comm.nranks - 1)) 0 numSlices

/-- `initUniRunnerStateRingAG`, nranks ≥ 2: the ring, then the copy of the local chunk and the two ready nodes. -/
def ringAG : RunnerState :=
  let numNodes := numSlices * (comm.nranks - 1)
  let chain := ringAGChain comm b numSlices
  let localChunkOffset := partOffset b.count comm.nranks comm.rank
  let cpyNodeIdx := chain.length
  let cpyNode : DagNode :=
    ⟨.cpy ⟨b.sendbuff + localChunkOffset, b.recvbuff + localChunkOffset, partCount b.count comm.nranks comm.rank⟩, 0, []⟩
  { dagNodes := chain.map (·.node) ++ [cpyNode]
    numDagNodes := numNodes + 1
    p2pReadyQueue := [cpyNodeIdx, 0]
    redReadyQueue := []
    numPendingNodes := (numNodes : Int) - 1 }

def initUniRunnerStateRingAG : Except Result RunnerState := withRanks comm b (ringAG comm b numSlices)

/-- Scatter-reduce step `i` of slice `s` of `initUniRunnerStateRingAR`: a transfer and its reduction. -/
def ringARReduceStep (nodesPerSlice s i p2pNodeIdx : Nat) : List Emitted :=
  let txChunk := (comm.rank + comm.nranks - i) % comm.nranks
  let rxChunk := (comm.rank + comm.nranks - i - 1) % comm.nranks
  let rxOffset := sliceOffset comm b numSlices rxChunk s
  let redNodeIdx := p2pNodeIdx + 1
  [⟨{ nodeData := .p2p [sendOp comm b numSlices (srcBase b i) txChunk s, recvOp comm b numSlices rxChunk s]
      numParents := if p2pNodeIdx = 0 then 0 else if i = 0 then 1 else 2
      children := [if s = numSlices - 1 then 2 * (i + 1) else p2pNodeIdx + nodesPerSlice, p2pNodeIdx + 1] },
    p2pNodeIdx = 0⟩,
   ⟨{ nodeData := .red ⟨b.recvbuff + rxOffset, b.sendbuff + rxOffset, b.recvbuff + rxOffset,
        sliceCount comm b numSlices rxChunk s⟩
      numParents := 1
      children := [redNodeIdx + 1] }, false⟩]

/-- All-gather step `i` of slice `s` of `initUniRunnerStateRingAR`. -/
def ringARGatherStep (nodesPerSlice numNodes s i p2pNodeIdx : Nat) : List Emitted :=
  let txChunk := (comm.rank + comm.nranks + 1 - i) % comm.nranks
  let rxChunk := (comm.rank + comm.nranks - i) % comm.nranks
  [⟨{ nodeData := .p2p [sendOp comm b numSlices b.recvbuff txChunk s, recvOp comm b numSlices rxChunk s]
      numParents := if i = 0 then 2 else 1
      children :=
        if s = numSlices - 1 then if p2pNodeIdx ≠ numNodes - 1 then [2 * comm.nranks + i - 1] else []
        else [p2pNodeIdx + nodesPerSlice] }, false⟩]

def twoPhases (k₁ k₂ : Nat) (phase1 phase2 : Nat → Nat → List Emitted) (globalNodeIdx : Nat) : List Emitted :=
  let first := forNodes phase1 globalNodeIdx k₁
  first ++ forNodes phase2 (globalNodeIdx + first.length) k₂

def ringARNodes : List Emitted :=
  let nodesPerSlice := 3 * (comm.nranks - 1)
  let numNodes := numSlices * nodesPerSlice
  forNodes (fun s =>
    twoPhases (comm.nranks - 1) (comm.nranks - 1) (ringARReduceStep comm b numSlices nodesPerSlice s)
      (ringARGatherStep comm b numSlices nodesPerSlice numNodes s)) 0 numSlices

/-- `initUniRunnerStateRingAR`, nranks ≥ 2. -/
def ringAR : RunnerState := .ofEmitted (numSlices * (3 * (comm.nranks - 1))) (ringARNodes comm b numSlices)

def initUniRunnerStateRingAR : Except Result RunnerState := withRanks comm b (ringAR comm b numSlices)

/-- The reductions of a step: `count` elements over `numRedSlices` nodes, `data` giving each its addresses. -/
def redNodes (numRedSlices count : Nat) (data : Nat → Nat → RedNodeData) (children : List Nat) : List Emitted :=
  (List.range numRedSlices).map fun r =>
    ⟨{ nodeData := .red (data (partOffset count numRedSlices r) (partCount count numRedSlices r))
       numParents := 1
       children := children }, false⟩

def slicedARReduceStep (numRedSlices nodesPerSlice s i p2pNodeIdx : Nat) : List Emitted :=
  let txChunk := (comm.rank + comm.nranks - i) % comm.nranks
  let rxChunk := (comm.rank + comm.nranks - i - 1) % comm.nranks
  let rxOffset := sliceOffset comm b numSlices rxChunk s
  let redSliceStartIdx := p2pNodeIdx + 1
  ⟨{ nodeData := .p2p [sendOp comm b numSlices (srcBase b i) txChunk s, recvOp comm b numSlices rxChunk s]
     numParents := if p2pNodeIdx = 0 then 0 else if i = 0 then 1 else 1 + numRedSlices
     children := (if s = numSlices - 1 then (i + 1) * (1 + numRedSlices) else p2pNodeIdx + nodesPerSlice) ::
       (List.range numRedSlices).map fun r => p2pNodeIdx + 1 + r }, p2pNodeIdx = 0⟩ ::
  redNodes numRedSlices (sliceCount comm b numSlices rxChunk s)
    (fun off redCount => ⟨b.recvbuff + (rxOffset + off), b.sendbuff + (rxOffset + off), b.recvbuff + (rxOffset + off),
      redCount⟩) [redSliceStartIdx + numRedSlices]

def slicedARGatherStep (numRedSlices nodesPerSlice numNodes s i p2pNodeIdx : Nat) : List Emitted :=
  let txChunk := (comm.rank + comm.nranks + 1 - i) % comm.nranks
  let rxChunk := (comm.rank + comm.nranks - i) % comm.nranks
  [⟨{ nodeData := .p2p [sendOp comm b numSlices b.recvbuff txChunk s, recvOp comm b numSlices rxChunk s]
      numParents := if i = 0 then 1 + numRedSlices else 1
      children :=
        if s = numSlices - 1 then
          if p2pNodeIdx ≠ numNodes - 1 then [(1 + numRedSlices) * (comm.nranks - 1) + i + 1] else []
        else [p2pNodeIdx + nodesPerSlice] }, false⟩]

/-- `initUniRunnerStateSlicedAR`, nranks ≥ 2. -/
def slicedAR (numRedSlices : Nat) : RunnerState :=
  let nodesPerSlice := (numRedSlices + 2) * (comm.nranks - 1)
  let numNodes := numSlices * nodesPerSlice
  .ofEmitted numNodes (forNodes (fun s =>
    twoPhases (comm.nranks - 1) (comm.nranks - 1) (slicedARReduceStep comm b numSlices numRedSlices nodesPerSlice s)
      (slicedARGatherStep comm b numSlices numRedSlices nodesPerSlice numNodes s)) 0 numSlices)

def initUniRunnerStateSlicedAR (cfg : Config) : Except Result RunnerState :=
  withRanks comm b (slicedAR comm b cfg.uniRunnerNSlices (cfg.numRedSlices b.count))

/-- Step `i` of slice `s` of `initUniRunnerStateRingRS`; every rank's chunk has `count` elements. -/
def ringRSStep (numRedSlices nodesPerSlice s i p2pNodeIdx : Nat) : List Emitted :=
  let txChunk := (comm.rank + comm.nranks - i - 1) % comm.nranks
  let rxChunk := (comm.rank + comm.nranks - i - 2) % comm.nranks
  let sliceOffsetInChunk := partOffset b.count numSlices s
  let count := partCount b.count numSlices s
  let txOffset := txChunk * b.count + sliceOffsetInChunk
  let rxOffset := rxChunk * b.count + sliceOffsetInChunk
  let src := if i = 0 then b.sendbuff else b.scratchbuff
  let redSliceStartIdx := p2pNodeIdx + 1
  ⟨{ nodeData := .p2p [⟨.send, comm.nextRank, src + txOffset, count⟩,
       ⟨.recv, comm.prevRank, b.scratchbuff + rxOffset, count⟩]
     numParents := if p2pNodeIdx = 0 then 0 else if i = 0 then 1 else 1 + numRedSlices
     children := ((List.range numRedSlices).map fun r => p2pNodeIdx + 1 + r) ++
       if s = numSlices - 1 then if i ≠ comm.nranks - 2 then [(i + 1) * (1 + numRedSlices)] else []
       else [p2pNodeIdx + nodesPerSlice] }, p2pNodeIdx = 0⟩ ::
  redNodes numRedSlices count (fun off redCount => ⟨b.scratchbuff + (rxOffset + off), b.sendbuff + (rxOffset + off),
      if i = comm.nranks - 2 then b.recvbuff + sliceOffsetInChunk + off else b.scratchbuff + (rxOffset + off),
      redCount⟩)
    (if i = comm.nranks - 2 then [] else [redSliceStartIdx + numRedSlices])

/-- `initUniRunnerStateRingRS`, nranks ≥ 2. -/
def ringRS (numRedSlices : Nat) : RunnerState :=
  let nodesPerSlice := (numRedSlices + 1) * (comm.nranks - 1)
  let numNodes := numSlices * nodesPerSlice
  .ofEmitted numNodes (forNodes (fun s sliceBase =>
    forNodes (ringRSStep comm b numSlices numRedSlices nodesPerSlice s) sliceBase (comm.nranks - 1)) 0 numSlices)

def initUniRunnerStateRingRS (cfg : Config) : Except Result RunnerState :=
  withRanks comm b (ringRS comm b cfg.uniRunnerNSlices (cfg.numRedSlices b.count))

end Ring

/-! ## Tree -/

/-- `8 * sizeof(int) - __builtin_clz(x)` for positive `x`. -/
def bitLength (x : Nat) : Nat := x.size

/-- `__builtin_ctz(x)` for positive `x`. -/
def ctz (x : Nat) : Nat := Nat.findGreatest (fun k => 2 ^ k ∣ x) x

section Tree

variable (comm : Comm) (b : Buffers) (numSlices numRedSlices root : Nat)

def algoRank : Nat := (comm.rank + comm.nranks - root) % comm.nranks

def nTotalSteps : Nat := bitLength (comm.nranks - 1)

/-- The number of children of a rank in the tree, `recvNodesPerSlice`. -/
def recvNodesPerSlice : Nat :=
  let algoRank := algoRank comm root
  let recvs := if algoRank ≠ 0 then ctz algoRank else nTotalSteps comm
  if algoRank ≠ 0 ∧ recvs ≠ 0 ∧ comm.nranks - algoRank ≤ 2 ^ (recvs - 1) then
    if comm.nranks - algoRank - 1 ≠ 0 then bitLength (comm.nranks - algoRank - 1) else 0
  else recvs

/-- Receive `i` of slice `s` of `initUniRunnerStateTreeRed` and its reductions. Received data goes to the second half of
`scratchbuff`, the running result is in the first half. -/
def treeRedRecvStep (nodesPerSlice s i recvNodeIdx : Nat) : List Emitted :=
  let sliceCount := partCount b.count numSlices s
  let sliceOffset := partOffset b.count numSlices s
  let rxOffset := b.count + sliceOffset
  let redSliceStartIdx := recvNodeIdx + 1
  ⟨{ nodeData := .p2p [⟨.recv, (comm.rank + 2 ^ i) % comm.nranks, b.scratchbuff + rxOffset, sliceCount⟩]
     numParents := if recvNodeIdx = 0 then 0 else if i = 0 then 1 else 1 + numRedSlices
     children := ((List.range numRedSlices).map fun r => recvNodeIdx + 1 + r) ++
       if s = numSlices - 1 then if i ≠ nTotalSteps comm - 1 then [(i + 1) * (1 + numRedSlices)] else []
       else [recvNodeIdx + nodesPerSlice] }, recvNodeIdx = 0⟩ ::
  redNodes numRedSlices sliceCount (fun off redCount => ⟨b.scratchbuff + (rxOffset + off),
      (if i = 0 then b.sendbuff else b.scratchbuff) + (rxOffset + off) - b.count,
      (if i = nTotalSteps comm - 1 then b.recvbuff else b.scratchbuff) + (rxOffset + off) - b.count, redCount⟩)
    (if i = nTotalSteps comm - 1 then [] else [redSliceStartIdx + numRedSlices])

def treeRedSendStep (nodesPerSlice s sendNodeIdx : Nat) : Emitted :=
  let recvs := recvNodesPerSlice comm root
  ⟨{ nodeData := .p2p [⟨.send, (comm.rank + comm.nranks - 2 ^ ctz (algoRank comm root)) % comm.nranks,
       (if recvs = 0 then b.sendbuff else b.scratchbuff) + partOffset b.count numSlices s,
       partCount b.count numSlices s⟩]
     numParents := if recvs = 0 then if s = 0 then 0 else 1 else 1 + numRedSlices
     children := if s = numSlices - 1 then [] else [sendNodeIdx + nodesPerSlice] }, recvs = 0 ∧ s = 0⟩

/-- `initUniRunnerStateTreeRed`, nranks ≥ 2. -/
def treeRed : RunnerState :=
  let recvs := recvNodesPerSlice comm root
  let sendNodesPerSlice := if algoRank comm root ≠ 0 then 1 else 0
  let nodesPerSlice := sendNodesPerSlice + recvs + recvs * numRedSlices
  .ofEmitted (nodesPerSlice * numSlices) (forNodes (fun s =>
    twoPhases recvs sendNodesPerSlice (treeRedRecvStep comm b numSlices numRedSlices nodesPerSlice s)
      (fun _ sendNodeIdx => [treeRedSendStep comm b numSlices numRedSlices root nodesPerSlice s sendNodeIdx]))
    0 numSlices)

end Tree

def initUniRunnerStateTreeRed (comm : Comm) (b : Buffers) (cfg : Config) (root : Nat) : Except Result RunnerState :=
  withRanks comm b (treeRed comm b cfg.uniRunnerNSlices (cfg.numRedSlices b.count) root)

end FlagCX.UniRunner
