import FlagCX.C2c.Planner

/-!
# The constructor (`flagcxC2cPlanner::flagcxC2cPlanner`) and the calls of the hybrid runner

* `Topology` : the communicators the runner is used on.
* `multiNicOf`, `eachNicPerRankOf` : the two NIC modes; `pipeSteps`, `seqSteps` : the numbers of steps.
* `Call` : one collective call of the hybrid runner on one rank; `Call.planner` : the planner it constructs.
* `reachesSearch` : `findStrategy` takes the branch with the general search.
-/

namespace FlagCX.C2c

namespace Comm

/-- The number of ranks in the clusters before `i`. -/
def offset (comm : Comm) (i : Nat) : Nat := ((List.range i).map comm.clusterSizes).sum

/-- Several clusters, numbered one after the other, each with at least one inter-rank. -/
structure Topology (comm : Comm) : Prop where
  clusters : 2 ≤ comm.clusterInterRankList.length
  nonempty : ∀ l ∈ comm.clusterInterRankList, l ≠ []
  nranks_eq : comm.nranks = comm.offset comm.clusterInterRankList.length
  lt_nranks : ∀ l ∈ comm.clusterInterRankList, ∀ r ∈ l, r < comm.nranks
  ids : ∀ i < comm.clusterInterRankList.length, ∀ r, comm.offset i ≤ r → r < comm.offset i + comm.clusterSizes i →
    comm.clusterIds r = i

theorem offset_succ (comm : Comm) (i : Nat) : comm.offset (i + 1) = comm.offset i + comm.clusterSizes i := by
  simp [offset, List.range_succ]

theorem exists_cluster (comm : Comm) {n r : Nat} (h : r < comm.offset n) :
    ∃ i < n, comm.offset i ≤ r ∧ r < comm.offset i + comm.clusterSizes i := by
  induction n with
  | zero => exact absurd h (Nat.not_lt_zero r)
  | succ n ih =>
    by_cases hr : r < comm.offset n
    · obtain ⟨i, hi, hir⟩ := ih hr
      exact ⟨i, Nat.lt_succ_of_lt hi, hir⟩
    · rw [offset_succ] at h
      exact ⟨n, Nat.lt_succ_self n, Nat.le_of_not_lt hr, h⟩

theorem Topology.mem_cluster {comm : Comm} (ht : comm.Topology) {r : Nat} (hr : r < comm.nranks) :
    comm.offset (comm.clusterIds r) ≤ r ∧ r < comm.offset (comm.clusterIds r) + comm.clusterSizes (comm.clusterIds r) ∧
      comm.clusterIds r < comm.clusterInterRankList.length := by
  rw [ht.nranks_eq] at hr
  obtain ⟨i, hi, h1, h2⟩ := comm.exists_cluster hr
  rw [ht.ids i hi r h1 h2]
  exact ⟨h1, h2, hi⟩

theorem ids_two {comm : Comm} (k : Nat) (hlen : comm.clusterInterRankList.length = 2) (hsize : comm.clusterSizes = fun _ => k)
    (hids : comm.clusterIds = fun r => if r < k then 0 else 1) : ∀ i < comm.clusterInterRankList.length, ∀ r,
    comm.offset i ≤ r → r < comm.offset i + comm.clusterSizes i → comm.clusterIds r = i := by
  intro i hi r h1 h2
  rw [hids]
  obtain rfl | rfl : i = 0 ∨ i = 1 := by omega
  · have h2 : r < 0 + k := by simpa [offset, hsize] using h2
    exact if_pos (by omega)
  · have h1 : k ≤ r := by simpa [offset, hsize] using h1
    exact if_neg (by omega)

end Comm

def CommOp.reduces (commOp : CommOp) : Bool := commOp == .allReduce || commOp == .reduceScatter || commOp == .reduce

/-- What the hybrid runner passes for `count` elements as `sendCount` and `recvCount`. -/
def CommOp.runnerCounts (commOp : CommOp) (count nranks : Nat) : Nat × Nat :=
  match commOp with
  | .gather | .allGather => (count, count * nranks)
  | .scatter => (count * nranks, count)
  | .reduceScatter => (nranks * count, count)
  | .alltoAllv => (1, 1)
  | _ => (count, count)

structure StepCounts where
  nSeqPreSteps : Nat
  nPipePreSteps : Nat
  nSeqInterSteps : Nat
  nPipePostSteps : Nat
  nSeqPostSteps : Nat
  deriving DecidableEq, Repr

def seqSteps : StepCounts := ⟨1, 0, 1, 0, 1⟩

/-- The steps of the ring pipeline, `none` for the operations that have none. -/
def pipeSteps (commOp : CommOp) (multiNic eachNicPerRank isRootCluster : Bool) (nclusters : Nat) : Option StepCounts :=
  match commOp with
  | .allGather =>
    some (if eachNicPerRank then ⟨0, 1, 0, nclusters - 2, 1⟩
      else if multiNic then ⟨1, 0, 1, nclusters - 2, 1⟩ else ⟨1, 0, 0, nclusters - 1, 1⟩)
  | .reduceScatter => if multiNic then some ⟨1, nclusters - 2, 1, 0, 1⟩ else none
  | .allReduce => if multiNic then some ⟨1, nclusters - 2, 1, nclusters - 1, 1⟩ else none
  | .scatter =>
    if eachNicPerRank then some (if isRootCluster then ⟨1, nclusters - 2, 0, 1, 0⟩ else seqSteps) else none
  | .gather =>
    if eachNicPerRank then some (if isRootCluster then ⟨0, 1, 0, nclusters - 2, 1⟩ else seqSteps) else none
  | .alltoAll | .alltoAllv => some ⟨0, 1, 0, 0, 0⟩
  | _ => none

section Modes
variable (comm : Comm) (commOp : CommOp) (totalCount : Nat)

/-- Every inter-rank list has the length of its cluster. -/
def nicPerRank : Bool :=
  (List.range comm.clusterInterRankList.length).all fun i =>
    (comm.clusterInterRankList.getD i []).length == comm.clusterSizes i

/-- All clusters have the size of cluster `i`. -/
def sameSizes (i : Nat) : Bool :=
  (List.range comm.clusterInterRankList.length).all fun j => comm.clusterSizes i == comm.clusterSizes j

def eachNicPerRankOf (i : Nat) : Bool := nicPerRank comm && sameSizes comm i

/-- `multiNic_` on a rank of cluster `i`: clusters of one NIC per rank and different sizes count as single-NIC. -/
def multiNicOf (i : Nat) : Bool :=
  (if commOp.reduces then comm.clusterInterRankList.all fun l => l.length != 1
    else comm.clusterInterRankList.any fun l => l.length != 1) &&
  (comm.clusterInterRankList.all fun l => l.length ≤ totalCount) && (!nicPerRank comm || sameSizes comm i)

end Modes

/-- A collective call of the hybrid runner on `rank`. `rootRank` is `none` for the operations without a root; `ring` is
`FLAGCX_C2C_ALGO=RING_PIPELINED`. -/
structure Call where
  comm : Comm
  commOp : CommOp
  count : Nat
  rootRank : Option Nat
  rank : Nat
  granularity : Granularity
  ring : Bool

namespace Call

/-- `sendCount_` and `recvCount_`. -/
def counts (c : Call) : Nat × Nat := c.commOp.runnerCounts c.count c.comm.nranks

def totalCount (c : Call) : Nat := if c.counts.2 ≤ c.counts.1 then c.counts.1 else c.counts.2

def clusterId (c : Call) : Nat := c.comm.clusterIds c.rank

/-- `rootClusterId_`. The operations without a root never read it. -/
def rootClusterId (c : Call) : Option Nat := c.rootRank.map c.comm.clusterIds

def isRootCluster (c : Call) : Bool := c.rootClusterId == some c.clusterId

def multiNic (c : Call) : Bool := multiNicOf c.comm c.commOp c.totalCount c.clusterId

def eachNicPerRank (c : Call) : Bool := eachNicPerRankOf c.comm c.clusterId

def pipe (c : Call) : Option StepCounts :=
  if c.ring then
    pipeSteps c.commOp c.multiNic c.eachNicPerRank c.isRootCluster c.comm.clusterInterRankList.length
  else none

def steps (c : Call) : StepCounts := c.pipe.getD seqSteps

def planner (c : Call) : Planner where
  comm := c.comm
  sendCount := c.counts.1
  recvCount := c.counts.2
  rootClusterId := c.rootClusterId
  commOp := c.commOp
  pipeline := c.pipe.isSome
  multiNic := c.multiNic
  eachNicPerRank := c.eachNicPerRank
  granularity := c.granularity
  nPipePreSteps := c.steps.nPipePreSteps
  nSeqInterSteps := c.steps.nSeqInterSteps
  nPipePostSteps := c.steps.nPipePostSteps

@[simp] theorem planner_comm (c : Call) : c.planner.comm = c.comm := rfl

@[simp] theorem planner_commOp (c : Call) : c.planner.commOp = c.commOp := rfl

@[simp] theorem planner_ranks (c : Call) (i : Nat) : c.planner.ranks i = c.comm.clusterInterRankList.getD i [] := rfl

@[simp] theorem planner_nclusters (c : Call) : c.planner.nclusters = c.comm.clusterInterRankList.length := rfl

@[simp] theorem planner_totalCount (c : Call) : c.planner.totalCount = c.totalCount := rfl

theorem planner_clusterOffset (c : Call) (i : Nat) : c.planner.clusterOffset i = c.comm.offset i := rfl

def rooted (c : Call) : Bool := c.commOp == .reduce || c.commOp == .gather || c.commOp == .scatter || c.commOp == .broadcast

/-- `multiNic_` after `findStrategy` has set it again: the branch with the multi-NIC strategies. -/
def multiNicBranch (c : Call) : Bool :=
  c.multiNic || c.commOp == .broadcast || c.commOp == .alltoAll || c.commOp == .alltoAllv || c.commOp == .scatter ||
    c.commOp == .gather

/-- `findStrategy` reaches the loop of searches. -/
def reachesSearch (c : Call) : Bool :=
  c.multiNicBranch && c.commOp != .alltoAll && c.commOp != .alltoAllv &&
    !((c.commOp == .scatter || c.commOp == .gather) && c.eachNicPerRank)

/-- The calls that the hybrid runner makes. -/
structure Admitted (c : Call) : Prop where
  topology : c.comm.Topology
  collective : c.commOp ≠ .noOp ∧ c.commOp ≠ .send ∧ c.commOp ≠ .recv
  rank_lt : c.rank < c.comm.nranks
  root_isSome : c.rootRank.isSome = c.rooted
  root_lt : ∀ r, c.rootRank = some r → r < c.comm.nranks

end Call

end FlagCX.C2c
