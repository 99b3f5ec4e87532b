import FlagCX.C2c.Buffer

/-!
# The C2C planner (`flagcxC2cPlanner`): `refresh` and `searchHeteroSendRecvOps`

Every rank builds the same table of buffer infos, one list for each inter-rank of each cluster, and searches it for
matching sends and receives.

* `refresh1`, `refresh0`, `refresh2` : the three modes of `refresh`; `regather` : what `findStrategy` makes of the lists
  between the two phases of a pipelined all-reduce.
* `visit` : the loop body of `searchHeteroSendRecvOps` at one iterator position; `scan` the walk over one list, which
  grows and shrinks while it is walked; `searchHeteroSendRecvOps` all walks of one round.

A `SearchState` keeps, next to the table, a history: every receive pushed, with the list it was pushed on.
-/

namespace FlagCX.C2c
open Function List

inductive CommOp where
  | noOp | send | recv | broadcast | gather | scatter | reduce | allReduce | allGather | reduceScatter
  | alltoAll | alltoAllv
  deriving DecidableEq, Repr

/-- `FLAGCX_C2C_SEARCH_GRANULARITY`. -/
inductive Granularity where
  | coarse
  | fine
  deriving DecidableEq, Repr

/-- The part of `flagcxComm` the planner reads. The inter-ranks of a cluster are ranks of that cluster, each listed
once. -/
structure Comm where
  clusterInterRankList : List (List Nat)
  clusterIds : Nat → Nat
  clusterSizes : Nat → Nat
  nranks : Nat
  member : ∀ i, ∀ r ∈ clusterInterRankList.getD i [], clusterIds r = i
  nodup : ∀ i, (clusterInterRankList.getD i []).Nodup

theorem member_two {clusterIds : Nat → Nat} {l₀ l₁ : List Nat} (h₀ : ∀ r ∈ l₀, clusterIds r = 0)
    (h₁ : ∀ r ∈ l₁, clusterIds r = 1) : ∀ i, ∀ r ∈ [l₀, l₁].getD i [], clusterIds r = i
  | 0 => h₀
  | 1 => h₁
  | _ + 2 => fun _ h => absurd h not_mem_nil

theorem nodup_two {l₀ l₁ : List Nat} (h₀ : l₀.Nodup) (h₁ : l₁.Nodup) : ∀ i, ([l₀, l₁].getD i []).Nodup
  | 0 => h₀
  | 1 => h₁
  | _ + 2 => nodup_nil

/-- `flagcxC2cPlanner`, without the fields that no function here reads. -/
structure Planner where
  comm : Comm
  sendCount : Nat
  recvCount : Nat
  rootClusterId : Option Nat
  commOp : CommOp
  pipeline : Bool
  multiNic : Bool
  eachNicPerRank : Bool
  granularity : Granularity
  nPipePreSteps : Nat
  nSeqInterSteps : Nat
  nPipePostSteps : Nat

/-- `bufferInfos_`: the list of each cluster and inter-rank, empty where the source has none. -/
abbrev BufferInfos := Nat × Nat → List BufferInfo

def pushBackBufferInfo (m : BufferInfos) (key : Nat × Nat) (e : BufferInfo) : BufferInfos := update m key (m key ++ [e])

namespace Planner

def totalCount (p : Planner) : Nat := if p.recvCount ≤ p.sendCount then p.sendCount else p.recvCount

def nclusters (p : Planner) : Nat := p.comm.clusterInterRankList.length

def ranks (p : Planner) (i : Nat) : List Nat := p.comm.clusterInterRankList.getD i []

/-- The number of ranks in the clusters before `i`. -/
def clusterOffset (p : Planner) (i : Nat) : Nat := ((range i).map p.comm.clusterSizes).sum

theorem cluster_unique (p : Planner) {i j r : Nat} (hi : r ∈ p.ranks i) (hj : r ∈ p.ranks j) : i = j := by
  rw [← p.comm.member i r hi, p.comm.member j r hj]

/-! ## `refresh` -/

/-- `getLcmOfInterRankList`. -/
def lcm (p : Planner) : Nat := (p.comm.clusterInterRankList.map length).foldl Nat.lcm 1

/-- `nClusterInterRanks` of `refresh(1)`. -/
def nClusterInterRanks (p : Planner) (i : Nat) : Nat := if p.multiNic then (p.ranks i).length else 1

/-- The elements cluster `i` has to send, of which each inter-rank takes its share. -/
def clusterCount (p : Planner) (i : Nat) : Nat :=
  if p.recvCount ≤ p.sendCount then p.totalCount else p.sendCount * p.comm.clusterSizes i

/-- The pushed info of `refresh(1)`: a send without a peer yet. -/
def sendInfo (offset count z : Nat) (isScheduled : Bool) : BufferInfo := ⟨offset, count, z, false, isScheduled, none, none⟩

/-- `isScheduled` of `refresh(1)`: the root cluster of a reduce or gather sends nothing. -/
def isScheduled (p : Planner) (i : Nat) : Bool := (p.commOp == .reduce || p.commOp == .gather) && p.rootClusterId == some i

/-- `isUseless` of `refresh(1)`: the other clusters of a scatter or broadcast send nothing. -/
def isUseless (p : Planner) (i : Nat) : Bool :=
  (p.commOp == .scatter || p.commOp == .broadcast) && p.rootClusterId.isSome && p.rootClusterId != some i

def pipelined (p : Planner) : Bool := (p.commOp == .reduceScatter || p.commOp == .allReduce) && p.pipeline

/-- The pipelined branch of `refresh(1)` for inter-rank `j` of cluster `i` and destination `z`. The remainder goes to
the last inter-rank, at the offset the source gives it. -/
def pipelineInfos (p : Planner) (i j z : Nat) : List BufferInfo :=
  let n := p.nClusterInterRanks i
  let rankCount := p.totalCount / p.comm.nranks
  let myCount := rankCount * p.comm.clusterSizes z / n
  let myRes := rankCount * p.comm.clusterSizes z % n
  let minCount := rankCount * p.comm.clusterSizes z / p.lcm
  let start := p.clusterOffset z * rankCount + myCount * j
  let scheduled := p.isScheduled i || i == z
  ((range (myCount / minCount)).map fun k => sendInfo (start + minCount * k) minCount z scheduled) ++
    (if j = n - 1 ∧ 0 < myRes then [sendInfo start myRes z scheduled] else [])

/-- The other branch: the last `myRes` inter-ranks take one element more. -/
def sequentialInfos (p : Planner) (i j z : Nat) : List BufferInfo :=
  if i = z ∨ p.isUseless i then [] else
    let n := p.nClusterInterRanks i
    let myCount := p.clusterCount i / n
    let myRes := p.clusterCount i % n
    let rankCount := myCount + if n - myRes ≤ j then 1 else 0
    let rankOffset := if j < n - myRes then myCount * j else myCount * (n - myRes) + (myCount + 1) * (j - (n - myRes))
    let rankMinCount := if p.granularity = .coarse then rankCount else p.clusterCount i / p.lcm
    let start := if p.recvCount ≤ p.sendCount then rankOffset else p.clusterOffset i * p.sendCount + rankOffset
    (range (if 0 < rankMinCount then rankCount / rankMinCount else 0)).map fun k =>
      sendInfo (start + rankMinCount * k) rankMinCount z (p.isScheduled i)

/-- The pushes of `refresh(1)`, in order. -/
def initialPushes (p : Planner) : List ((Nat × Nat) × BufferInfo) :=
  (range p.nclusters).flatMap fun i =>
    (range (p.nClusterInterRanks i)).flatMap fun j =>
      (range p.nclusters).flatMap fun z =>
        (if p.pipelined then p.pipelineInfos i j z else p.sequentialInfos i j z).map fun e =>
          ((i, (p.ranks i).getD j 0), e)

/-- `refresh(1)` divides by these numbers: on any other planner it does not return. -/
def accepted (p : Planner) : Prop :=
  p.lcm ≠ 0 ∧ (p.pipelined = true → p.comm.nranks ≠ 0 ∧
    ∀ z < p.nclusters, p.totalCount / p.comm.nranks * p.comm.clusterSizes z / p.lcm ≠ 0)

instance (p : Planner) : Decidable p.accepted := inferInstanceAs (Decidable (_ ∧ (_ → _ ∧ _)))

/-- `refresh(1)`: the lists before the first round. -/
def refresh1 (p : Planner) : Option BufferInfos :=
  if p.accepted then
    some fun key => (p.initialPushes.filter fun push => push.1 = key).map Prod.snd
  else none

/-- The keys that `refresh(0)` and `refresh(2)` walk. -/
def isInterRank (p : Planner) (key : Nat × Nat) : Prop := key.2 ∈ p.ranks key.1

instance (p : Planner) (key : Nat × Nat) : Decidable (p.isInterRank key) := inferInstanceAs (Decidable (_ ∈ _))

/-- `refresh(0)`: the receives of the last round are erased. -/
def refresh0 (p : Planner) (m : BufferInfos) : BufferInfos := fun key =>
  if p.isInterRank key then (m key).filter fun e => !e.isRecv else m key

/-- `refresh(2)`: what has a peer is erased. -/
def refresh2 (p : Planner) (m : BufferInfos) : BufferInfos := fun key =>
  if p.isInterRank key then (m key).filter fun e => e.peerRank.isNone else m key

/-- The second phase of a pipelined all-reduce, at inter-rank number `j` of cluster `i`: what is scheduled leaves the
list, and each range the rank keeps for its own cluster is to be sent to every other one. -/
def regatherStep (p : Planner) (m : BufferInfos) (at' : Nat × Nat) : BufferInfos :=
  let (i, j) := at'
  let r := (p.ranks i).getD j 0
  let kept := (m (i, r)).filter fun e => !e.isScheduled
  let own := (m (i, r)).filter fun e => e.isScheduled && e.peerRank.isNone
  let pushes := own.flatMap fun e =>
    ((range p.nclusters).filter fun c => c ≠ i).map fun c => sendInfo e.offset e.count c false
  pushes.foldl (fun m e => pushBackBufferInfo m (i, j + p.clusterOffset i) e) (update m (i, r) kept)

/-- The lists for the second phase of a pipelined all-reduce. -/
def regather (p : Planner) (m : BufferInfos) : BufferInfos :=
  ((range p.nclusters).flatMap fun i => (range (p.ranks i).length).map fun j => (i, j)).foldl p.regatherStep m

end Planner

/-! ## `searchHeteroSendRecvOps` -/

/-- A receive pushed by the search: where, what, and the list it was pushed on. -/
structure Push where
  key : Nat × Nat
  info : BufferInfo
  before : List BufferInfo

/-- The table during a round, with the receives pushed so far. -/
structure SearchState where
  infos : BufferInfos
  pushed : List Push

/-- The receive of a range from `peer` in loop `loopId`. -/
def recvInfo (offset count peer loopId : Nat) : BufferInfo := ⟨offset, count, 0, true, true, some peer, some loopId⟩

/-- `pushBackBufferInfo` of a receive. -/
def SearchState.pushRecv (s : SearchState) (key : Nat × Nat) (e : BufferInfo) : SearchState :=
  ⟨pushBackBufferInfo s.infos key e, s.pushed ++ [⟨key, e, s.infos key⟩]⟩

/-- One walk of the search: the list of inter-rank number `r1` of cluster `src`, for the sends to `dst`. -/
structure Job where
  src : Nat
  dst : Nat
  r1 : Nat
  deriving DecidableEq, Repr

section Search
variable (p : Planner) (searchMethod loopId : Nat) (job : Job)

def Job.rank : Nat := (p.ranks job.src).getD job.r1 0

/-- The order in which the inter-ranks of the destination are tried for a whole range. -/
def directOrder : List Nat :=
  let ranks := p.ranks job.dst
  (range ranks.length).map fun r2 =>
    ranks.getD (if searchMethod = 1 then (r2 + job.r1) % ranks.length else r2) 0

def splitOrder : List Nat :=
  let ranks := p.ranks job.dst
  (range ranks.length).map fun r2 => ranks.getD ((r2 + job.r1) % ranks.length) 0

/-- The first inter-rank that takes the whole range. -/
def directTarget (m : BufferInfos) (it : BufferInfo) : Option Nat :=
  (directOrder p searchMethod job).find? fun b => checkIfPossibleToPush (m (job.dst, b)) it.offset it.count

/-- The loop body of the choice of a split, on `(maxSplitCount, finalPushMode, splitRank)`. -/
def splitPick (m : BufferInfos) (it : BufferInfo) (acc : Nat × PushMode × Nat) (b : Nat) : Nat × PushMode × Nat :=
  match checkIfPossibleToSplitAndPush (m (job.dst, b)) it.offset it.count with
  | some (splitCount, pushMode) => if acc.1 < splitCount then (splitCount, pushMode, b) else acc
  | none => acc

/-- The inter-rank that takes the longest piece. -/
def splitTarget (m : BufferInfos) (it : BufferInfo) : Nat × PushMode × Nat :=
  (splitOrder p job).foldl (splitPick job m it) (0, .prePush, (p.ranks job.dst).getD 0 0)

/-- The entry is one the walk has to place. -/
def wanted (it : BufferInfo) : Prop := it.isScheduled = false ∧ it.isRecv = false ∧ it.clusterIdToSend = job.dst

instance (it : BufferInfo) : Decidable (wanted job it) := inferInstanceAs (Decidable (_ ∧ _ ∧ _))

/-- The body of the walk at position `k`: the next state and position, `none` at the end of the list. -/
def visit (s : SearchState) (k : Nat) : Option (SearchState × Nat) :=
  let a := job.rank p
  match (s.infos (job.src, a))[k]? with
  | none => none
  | some it =>
    if ¬ wanted job it then some (s, k + 1)
    else
      match directTarget p searchMethod job s.infos it with
      | some b =>
        let s := s.pushRecv (job.dst, b) (recvInfo it.offset it.count a loopId)
        let it' := { it with isScheduled := true, peerRank := some b, loopId := some loopId }
        some ({ s with infos := update s.infos (job.src, a) ((s.infos (job.src, a)).set k it') }, k + 1)
      | none =>
        let (maxSplitCount, finalPushMode, splitRank) := splitTarget p job s.infos it
        if maxSplitCount = 0 then some (s, k + 1)
        else
          let pieceOffset := finalPushMode.pieceOffset it.offset it.count maxSplitCount
          let restOffset := finalPushMode.restOffset it.offset maxSplitCount
          let s := s.pushRecv (job.dst, splitRank) (recvInfo pieceOffset maxSplitCount a loopId)
          let infos := pushBackBufferInfo s.infos (job.src, a)
            ⟨pieceOffset, maxSplitCount, it.clusterIdToSend, false, true, some splitRank, some loopId⟩
          let infos := pushBackBufferInfo infos (job.src, a)
            ⟨restOffset, it.count - maxSplitCount, it.clusterIdToSend, false, false, none, none⟩
          some ({ s with infos := update infos (job.src, a) ((infos (job.src, a)).eraseIdx k) }, k)

/-- The walk from position `k`. -/
def scanFrom : Nat → SearchState → Nat → SearchState
  | 0, s, _ => s
  | fuel + 1, s, k =>
    match visit p searchMethod loopId job s k with
    | none => s
    | some (s', k') => scanFrom fuel s' k'

/-- The work an entry can cause: a split leaves a shorter entry and one that is scheduled. -/
def weight (e : BufferInfo) : Nat := if e.isScheduled then 1 else 2 * e.count + 1

/-- The walk over one list. -/
def scan (s : SearchState) : SearchState :=
  scanFrom p searchMethod loopId job (((s.infos (job.src, job.rank p)).map weight).sum + 1) s 0

/-- The walks of a round: first the sends of the lower cluster of each pair, then those of the higher one. -/
def searchJobs : List Job :=
  ((range p.nclusters).flatMap fun j => (range' (j + 1) (p.nclusters - (j + 1))).flatMap fun z =>
    (range (p.ranks j).length).map fun r1 => ⟨j, z, r1⟩) ++
  ((range p.nclusters).flatMap fun j => (range' (j + 1) (p.nclusters - (j + 1))).flatMap fun z =>
    (range (p.ranks z).length).map fun r1 => ⟨z, j, r1⟩)

def searchHeteroSendRecvOps (s : SearchState) : SearchState :=
  (searchJobs p).foldl (fun s job => scan p searchMethod loopId job s) s

end Search

end FlagCX.C2c
