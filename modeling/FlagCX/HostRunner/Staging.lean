import Mathlib.Order.Lattice.Nat
import Mathlib.Data.Finset.Lattice.Fold
import FlagCX.Bootstrap.Reductions
import FlagCX.Lib.Ranges

/-!
# The staging buffers of the host runner (`host_runner.cc`, `bootstrap_adaptor.cc`)

* `getStagedBuffer` : the free list of one direction; `getStagedBuffer_spec`.
* `Plan`, `hostRunnerGather`, … : what a collective asks for, and the bytes it touches on a rank.
* `plan_sound_iff`  : when a collective stays inside its buffers and inside what it defines.
* `World`, `step`   : sends and receives in groups. The device copies of the receives wait for the end of the outermost group.
* `staging_sound`   : the two together.

Sizes are those of buffers that exist, so that `count * typeSize` does not wrap. Copies and the network succeed; a call
whose staging buffer cannot be allocated touches nothing and is no step.
-/

namespace FlagCX.HostRunner
open Lib Bootstrap Ranges Function List Option

/-! ## The free lists -/

/-- `stagedBuffer`, without its memory. -/
structure StagedBuffer where
  offset : Nat
  size : Nat
  deriving DecidableEq, Repr

/-- `BOOTSTRAP_ADAPTOR_MAX_STAGED_BUFFER_SIZE`. -/
def maxStagedBufferSize : Nat := 8 * 1024 * 1024

/-- The first doubling of `newSize` that is large enough. When there is none that an `int` holds, the size that `malloc` is
asked for is negative. -/
def newSize (size : Nat) : Option Nat := ((range 8).map fun k => maxStagedBufferSize * 2 ^ k).find? (size ≤ ·)

/-- `bootstrapAdaptorGetStagedBuffer` on one of the two lists: the number of the buffer, and the list. -/
def getStagedBuffer (buffers : List StagedBuffer) (size : Nat) : Option (Nat × List StagedBuffer) :=
  match buffers.findIdx? fun sbuff => size ≤ sbuff.size - sbuff.offset with
  | some i => some (i, buffers)
  | none => (newSize size).map fun n => (buffers.length, buffers ++ [⟨0, n⟩])

/-- Nothing moves the offsets, and an `int` holds the sizes. -/
def Staged (buffers : List StagedBuffer) : Prop := ∀ sbuff ∈ buffers, sbuff.offset = 0 ∧ sbuff.size ≤ 2 ^ 30

section
variable {buffers buffers' : List StagedBuffer} {size n i : Nat}

theorem newSize_spec (h : newSize size = some n) : size ≤ n ∧ n ≤ 2 ^ 30 := by
  obtain ⟨k, hk, rfl⟩ := mem_map.1 (mem_of_find?_eq_some h)
  refine ⟨by simpa using find?_some h, ?_⟩
  have := Nat.pow_le_pow_right (n := 2) (by decide) (Nat.le_of_lt_succ (mem_range.1 hk))
  rw [maxStagedBufferSize]
  omega

theorem getStagedBuffer_spec (hs : Staged buffers) (h : getStagedBuffer buffers size = some (i, buffers')) :
    Staged buffers' ∧ (∃ sbuff, buffers'[i]? = some sbuff ∧ size ≤ sbuff.size) ∧
      (buffers' = buffers ∨ (∃ sbuff, buffers' = buffers ++ [sbuff]) ∧ i = buffers.length) := by
  rw [getStagedBuffer] at h
  split at h
  · rename_i j hj
    obtain ⟨rfl, rfl⟩ := h
    obtain ⟨hlt, hroom, -⟩ := findIdx?_eq_some_iff_getElem.1 hj
    refine ⟨hs, ⟨_, getElem?_eq_getElem hlt, (of_decide_eq_true hroom).trans (Nat.sub_le ..)⟩, .inl rfl⟩
  · obtain ⟨n, hn, heq⟩ := map_eq_some_iff.1 h
    obtain ⟨rfl, rfl⟩ := heq
    obtain ⟨hle, hmax⟩ := newSize_spec hn
    refine ⟨forall_mem_append.2 ⟨hs, by simpa using hmax⟩, ⟨⟨0, n⟩, by simp, hle⟩, .inr ⟨⟨_, rfl⟩, rfl⟩⟩

end

/-! ## The collectives -/

/-- The arguments of a call on a rank; those of `flagcxAlltoAllv` are the counts and displacements. -/
structure Args where
  nranks : Nat
  rank : Nat
  root : Nat
  count : Nat
  typeSize : Nat
  sendcounts : Nat → Nat
  sdispls : Nat → Nat
  recvcounts : Nat → Nat
  rdispls : Nat → Nat

/-- What a call asks for, the ranges of the two buffers that it and the adaptor's collective read and write, how much of
`recvbuff` it writes, and what the collective defines of it. -/
structure Plan where
  askIn : Nat
  askOut : Nat
  usesIn : Ranges
  usesOut : Ranges
  copied : Nat
  defines : Ranges

section Plans
variable (a : Args)

def Args.size : Nat := a.count * a.typeSize

def Args.totalSize : Nat := a.nranks * a.size

def Args.blocks : Ranges := (range a.nranks).map fun i => (i * a.size, a.size)

def Args.chunks : Chunks := chunksOf a.size a.nranks a.typeSize

/-- The chunks that the rings go through. -/
def Args.ring : Ranges := (range a.nranks).map fun i => (a.chunks.offset i, a.chunks.length i)

/-- Where the rings leave the chunk of the rank, and where it is moved. -/
def Args.own : Ranges := [(0, a.chunks.length a.rank), (a.chunks.offset a.rank, a.chunks.length a.rank)]

/-- An address behind the start of a buffer by an `int` that is computed from `n`. -/
def intOffset (n : Nat) : Nat := if n % 2 ^ 32 < 2 ^ 31 then n % 2 ^ 32 else 2 ^ 64 - 2 ^ 32 + n % 2 ^ 32

def hostRunnerReduce : Plan where
  askIn := a.size
  askOut := a.size
  usesIn := (0, a.size) :: if a.nranks = 1 then [(0, a.size)] else a.ring
  usesOut := (if a.nranks = 1 then [(0, a.size)] else a.own ++ if a.rank = a.root then a.ring else []) ++
    if a.rank = a.root then [(0, a.size)] else []
  copied := if a.rank = a.root then a.size else 0
  defines := if a.rank = a.root then [(0, a.size)] else []

/-- `hostRunnerGather`. It copies all blocks to the device on every rank. -/
def hostRunnerGather : Plan where
  askIn := a.size
  askOut := a.size
  usesIn := [(0, a.size)]
  usesOut := (if a.nranks = 1 then [(0, a.size)] else if a.rank = a.root then
      (a.root * a.size, a.size) :: ((range a.nranks).filter (· ≠ a.root)).map fun i => (intOffset (i * a.size), a.size)
    else []) ++ [(0, a.totalSize)]
  copied := a.totalSize
  defines := if a.rank = a.root then [(0, a.totalSize)] else []

def hostRunnerScatter : Plan where
  askIn := a.totalSize
  askOut := a.size
  usesIn := (0, a.totalSize) :: if a.rank = a.root then a.blocks else []
  usesOut := [(0, a.size)]
  copied := a.size
  defines := [(0, a.size)]

/-- `hostRunnerBroadcast`. The root's collective reads a block for each rank. -/
def hostRunnerBroadcast : Plan where
  askIn := a.size
  askOut := a.size
  usesIn := (0, a.size) :: if a.nranks ≠ 1 ∧ a.rank = a.root then a.blocks else []
  usesOut := [(0, a.size)]
  copied := a.size
  defines := [(0, a.size)]

def hostRunnerAllReduce : Plan where
  askIn := a.size
  askOut := a.size
  usesIn := (0, a.size) :: if a.nranks = 1 then [] else a.ring
  usesOut := (0, a.size) :: if a.nranks = 1 then [] else a.own ++ a.ring
  copied := a.size
  defines := [(0, a.size)]

def hostRunnerReduceScatter : Plan where
  askIn := a.totalSize
  askOut := a.size
  usesIn := (0, a.totalSize) :: if a.nranks = 1 then [(0, a.size)] else a.blocks
  usesOut := [(0, a.size)]
  copied := a.size
  defines := [(0, a.size)]

def hostRunnerAllGather : Plan where
  askIn := a.size
  askOut := a.totalSize
  usesIn := [(0, a.size)]
  usesOut := (0, a.totalSize) :: a.blocks
  copied := a.totalSize
  defines := [(0, a.totalSize)]

def hostRunnerAlltoAll : Plan where
  askIn := a.totalSize
  askOut := a.totalSize
  usesIn := (0, a.totalSize) :: a.blocks
  usesOut := (0, a.totalSize) :: a.blocks
  copied := a.totalSize
  defines := [(0, a.totalSize)]

def Args.spans (counts displs : Nat → Nat) : Ranges :=
  (range a.nranks).map fun i => (displs i * a.typeSize, counts i * a.typeSize)

/-- The size that reaches behind all of them. -/
def Args.maxSize (counts displs : Nat → Nat) : Nat := (Finset.range a.nranks).sup fun i => (counts i + displs i) * a.typeSize

/-- `hostRunnerAlltoAllv`. The collective copies the rank's own block with its send count. -/
def hostRunnerAlltoAllv : Plan where
  askIn := a.maxSize a.sendcounts a.sdispls
  askOut := a.maxSize a.recvcounts a.rdispls
  usesIn := (0, a.maxSize a.sendcounts a.sdispls) :: a.spans a.sendcounts a.sdispls
  usesOut := (0, a.maxSize a.recvcounts a.rdispls) :: (a.rdispls a.rank * a.typeSize, a.sendcounts a.rank * a.typeSize) ::
    (a.spans a.recvcounts a.rdispls).eraseIdx a.rank
  copied := a.maxSize a.recvcounts a.rdispls
  defines := a.spans a.recvcounts a.rdispls

end Plans

inductive Collective where
  | reduce | gather | scatter | broadcast | allReduce | reduceScatter | allGather | alltoAll | alltoAllv
  deriving DecidableEq, Repr

def plan (a : Args) : Collective → Plan
  | .reduce => hostRunnerReduce a
  | .gather => hostRunnerGather a
  | .scatter => hostRunnerScatter a
  | .broadcast => hostRunnerBroadcast a
  | .allReduce => hostRunnerAllReduce a
  | .reduceScatter => hostRunnerReduceScatter a
  | .allGather => hostRunnerAllGather a
  | .alltoAll => hostRunnerAlltoAll a
  | .alltoAllv => hostRunnerAlltoAllv a

/-- The bytes of the ranges lie in a buffer. -/
def Fit (uses : Ranges) (capacity : Nat) : Prop := ∀ r ∈ uses, r.2 = 0 ∨ r.1 + r.2 ≤ capacity

/-- The ranges lie in the buffers, and what is written of `recvbuff` is defined by the collective. -/
def Plan.Sound (p : Plan) (capIn capOut : Nat) : Prop :=
  Fit p.usesIn capIn ∧ Fit p.usesOut capOut ∧ ∀ b < p.copied, Covers p.defines b

def Meets (a : Args) (capIn capOut : Nat) : Collective → Prop
  | .gather => a.totalSize = 0 ∨ (a.rank = a.root ∧ a.totalSize ≤ capOut)
  | .broadcast => a.nranks ≠ 1 ∧ a.rank = a.root → a.totalSize ≤ capIn
  | .alltoAllv => (a.sendcounts a.rank * a.typeSize = 0 ∨ (a.rdispls a.rank + a.sendcounts a.rank) * a.typeSize ≤ capOut) ∧
      ∀ b < a.maxSize a.recvcounts a.rdispls, ∃ i < a.nranks,
        a.rdispls i * a.typeSize ≤ b ∧ b < (a.rdispls i + a.recvcounts i) * a.typeSize
  | _ => True

section Plans
variable {a : Args} {capIn capOut : Nat}

variable {uses : Ranges} {capacity : Nat}

theorem fit_cons {r : Nat × Nat} :
    Fit (r :: uses) capacity ↔ (r.2 = 0 ∨ r.1 + r.2 ≤ capacity) ∧ Fit uses capacity := forall_mem_cons

theorem fit_append {uses' : Ranges} : Fit (uses ++ uses') capacity ↔ Fit uses capacity ∧ Fit uses' capacity :=
  forall_mem_append

theorem fit_ite {p : Prop} [Decidable p] {uses' : Ranges} (h : p → Fit uses capacity)
    (h' : ¬ p → Fit uses' capacity) : Fit (if p then uses else uses') capacity := by
  split
  · exact h (by assumption)
  · exact h' (by assumption)

theorem fit_nil : Fit [] capacity := fun _ h => nomatch h

theorem covers_whole {size : Nat} : ∀ b < size, Covers [(0, size)] b := fun b hb => ⟨_, mem_singleton_self _, by simpa using hb⟩

theorem Args.block_le {i : Nat} (hi : i < a.nranks) : i * a.size + a.size ≤ a.totalSize := by
  rw [← Nat.succ_mul]
  exact Nat.mul_le_mul_right _ hi

theorem Args.size_le (hrank : a.rank < a.nranks) : a.size ≤ a.totalSize := (Nat.le_add_left ..).trans (block_le hrank)

theorem fit_blocks (h : a.totalSize ≤ capacity) : Fit a.blocks capacity := by
  intro r hr
  obtain ⟨i, hi, rfl⟩ := mem_map.1 hr
  exact .inr ((Args.block_le (mem_range.1 hi)).trans h)

theorem Args.chunk_le (i : Nat) : a.chunks.offset i + a.chunks.length i ≤ a.size := by
  have hsucc : chunkBytes a.size a.nranks a.typeSize * (i + 1) = _ := Nat.mul_succ (chunkBytes a.size a.nranks a.typeSize) i
  simp only [Args.chunks, chunksOf]
  split
  · omega
  · split <;> omega

theorem fit_ring (h : a.size ≤ capacity) : Fit a.ring capacity := by
  intro r hr
  obtain ⟨i, -, rfl⟩ := mem_map.1 hr
  exact .inr ((Args.chunk_le i).trans h)

theorem fit_own (h : a.size ≤ capacity) : Fit a.own capacity := by
  have := a.chunk_le a.rank
  exact fit_cons.2 ⟨.inr (by simp only; omega), fit_cons.2 ⟨.inr (by simp only; omega), fit_nil⟩⟩

theorem fit_whole {size : Nat} (h : size ≤ capacity) : Fit [(0, size)] capacity :=
  fit_cons.2 ⟨.inr (by simpa using h), fit_nil⟩

theorem intOffset_eq {n : Nat} (h : n < 2 ^ 31) : intOffset n = n := by
  rw [intOffset, Nat.mod_eq_of_lt (h.trans (by decide)), if_pos h]

section

variable (hrank : a.rank < a.nranks) (hin : a.size ≤ capIn) (hout : a.size ≤ capOut)
include hrank hin hout

theorem gather_sound_iff (hcap : capOut ≤ 2 ^ 30) :
    (hostRunnerGather a).Sound capIn capOut ↔ Meets a capIn capOut .gather := by
  have hsize := Args.size_le hrank
  constructor
  · rintro ⟨-, hfit, hcov⟩
    have htotal := hfit (0, a.totalSize) (mem_append_right _ (mem_singleton_self _))
    refine (Nat.eq_zero_or_pos a.totalSize).imp_right fun hpos => ?_
    by_cases hroot : a.rank = a.root
    · exact ⟨hroot, by simp only at htotal; omega⟩
    · obtain ⟨r, hr, -⟩ := hcov 0 hpos
      simp [hostRunnerGather, hroot] at hr
  · intro h
    have hblock : ∀ i < a.nranks, a.size = 0 ∨ i * a.size + a.size ≤ capOut := fun i hi =>
      h.imp (fun hzero => by omega) fun hroot => (Args.block_le hi).trans hroot.2
    dsimp only [Plan.Sound, hostRunnerGather]
    refine ⟨fit_whole hin, fit_append.2 ⟨?_, ?_⟩, fun b hb => ?_⟩
    · refine fit_ite (fun _ => fit_whole hout) fun _ => fit_ite (fun hroot => ?_) fun _ => fit_nil
      refine fit_cons.2 ⟨hblock _ (hroot ▸ hrank), fun r hr => ?_⟩
      obtain ⟨i, hi, rfl⟩ := mem_map.1 hr
      refine (hblock i (mem_range.1 (mem_of_mem_filter hi))).imp_right fun hle => ?_
      rwa [intOffset_eq (by omega)]
    · exact fit_cons.2 ⟨h.imp_right fun hroot => by simpa using hroot.2, fit_nil⟩
    · obtain hzero | ⟨hroot, -⟩ := h
      · omega
      · rw [if_pos hroot]
        exact covers_whole b hb

theorem broadcast_sound_iff : (hostRunnerBroadcast a).Sound capIn capOut ↔ Meets a capIn capOut .broadcast := by
  constructor
  · rintro ⟨hfit, -, -⟩ hroot
    have hlast := hfit ((a.nranks - 1) * a.size, a.size) (mem_cons_of_mem _ (by
      rw [if_pos hroot]
      exact mem_map.2 ⟨_, mem_range.2 (by omega), rfl⟩))
    have htotal : a.totalSize = (a.nranks - 1) * a.size + a.size := by
      rw [← Nat.succ_mul, Nat.succ_eq_add_one, Nat.sub_add_cancel (by omega)]
      rfl
    obtain hzero | hle := hlast
    · simp only at hzero
      simp [Args.totalSize, hzero]
    · exact htotal.trans_le hle
  · intro h
    exact ⟨fit_append.2 ⟨fit_whole hin, fit_ite (fun hroot => fit_blocks (h hroot)) fun _ => fit_nil⟩, fit_whole hout, covers_whole⟩

end

theorem Args.span_le (counts displs : Nat → Nat) {i : Nat} (hi : i < a.nranks) :
    displs i * a.typeSize + counts i * a.typeSize ≤ a.maxSize counts displs := by
  rw [← Nat.add_mul, Nat.add_comm]
  exact Finset.le_sup (f := fun i => (counts i + displs i) * a.typeSize) (Finset.mem_range.2 hi)

theorem alltoAllv_sound_iff (hin : (hostRunnerAlltoAllv a).askIn ≤ capIn) (hout : (hostRunnerAlltoAllv a).askOut ≤ capOut) :
    (hostRunnerAlltoAllv a).Sound capIn capOut ↔ Meets a capIn capOut .alltoAllv := by
  have hspans : ∀ counts displs capacity, a.maxSize counts displs ≤ capacity → Fit (a.spans counts displs) capacity := by
    intro counts displs capacity hle r hr
    obtain ⟨i, hi, rfl⟩ := mem_map.1 hr
    exact .inr ((Args.span_le counts displs (mem_range.1 hi)).trans hle)
  have hcover : ∀ b, Covers (a.spans a.recvcounts a.rdispls) b ↔ ∃ i < a.nranks,
      a.rdispls i * a.typeSize ≤ b ∧ b < (a.rdispls i + a.recvcounts i) * a.typeSize := by
    intro b
    simp only [Covers, Args.spans, List.mem_map, List.mem_range, Nat.add_mul]
    constructor
    · rintro ⟨_, ⟨i, hi, rfl⟩, hb⟩
      exact ⟨i, hi, hb⟩
    · rintro ⟨i, hi, hb⟩
      exact ⟨_, ⟨i, hi, rfl⟩, hb⟩
  have hall : Fit (hostRunnerAlltoAllv a).usesIn capIn := fit_append.2 ⟨fit_whole hin, hspans _ _ _ hin⟩
  have hrest : Fit ((a.spans a.recvcounts a.rdispls).eraseIdx a.rank) capOut :=
    fun r hr => hspans _ _ _ hout r (mem_of_mem_eraseIdx hr)
  have hself : Fit (hostRunnerAlltoAllv a).usesOut capOut ↔
      a.sendcounts a.rank * a.typeSize = 0 ∨ (a.rdispls a.rank + a.sendcounts a.rank) * a.typeSize ≤ capOut := by
    rw [Nat.add_mul]
    refine ⟨fun h => h _ (mem_cons_of_mem _ (mem_cons_self ..)), fun h => ?_⟩
    exact fit_append.2 ⟨fit_whole hout, fit_cons.2 ⟨h, hrest⟩⟩
  exact (and_iff_right hall).trans (and_congr hself (forall₂_congr fun b _ => hcover b))

theorem plan_sound_iff (c : Collective) (hrank : a.rank < a.nranks) (hin : (plan a c).askIn ≤ capIn)
    (hout : (plan a c).askOut ≤ capOut) (hcap : capOut ≤ 2 ^ 30) : (plan a c).Sound capIn capOut ↔ Meets a capIn capOut c := by
  have hsize := Args.size_le hrank
  cases c with
  | gather => exact gather_sound_iff hrank hin hout hcap
  | broadcast => exact broadcast_sound_iff hrank hin hout
  | alltoAllv => exact alltoAllv_sound_iff hin hout
  | reduce =>
    refine iff_of_true ?_ trivial
    dsimp only [plan, hostRunnerReduce, Plan.Sound]
    refine ⟨fit_append.2 ⟨fit_whole hin, fit_ite (fun _ => fit_whole hin) fun _ => fit_ring hin⟩, fit_append.2 ⟨?_, ?_⟩, ?_⟩
    · refine fit_ite (fun _ => fit_whole hout) fun _ => fit_append.2 ⟨fit_own hout, ?_⟩
      exact fit_ite (fun _ => fit_ring hout) fun _ => fit_nil
    · exact fit_ite (fun _ => fit_whole hout) fun _ => fit_nil
    · split
      · exact covers_whole
      · exact fun b hb => absurd hb (Nat.not_lt_zero b)
  | scatter =>
    refine iff_of_true ?_ trivial
    exact ⟨fit_append.2 ⟨fit_whole hin, fit_ite (fun _ => fit_blocks hin) fun _ => fit_nil⟩, fit_whole hout, covers_whole⟩
  | allReduce =>
    refine iff_of_true ?_ trivial
    refine ⟨fit_append.2 ⟨fit_whole hin, ?_⟩, fit_append.2 ⟨fit_whole hout, ?_⟩, covers_whole⟩
    · exact fit_ite (fun _ => fit_nil) fun _ => fit_ring hin
    · exact fit_ite (fun _ => fit_nil) fun _ => fit_append.2 ⟨fit_own hout, fit_ring hout⟩
  | reduceScatter =>
    refine iff_of_true ?_ trivial
    refine ⟨fit_append.2 ⟨fit_whole hin, ?_⟩, fit_whole hout, covers_whole⟩
    exact fit_ite (fun _ => fit_whole (hsize.trans hin)) fun _ => fit_blocks hin
  | allGather => exact iff_of_true ⟨fit_whole hin, fit_append.2 ⟨fit_whole hout, fit_blocks hout⟩, covers_whole⟩ trivial
  | alltoAll =>
    refine iff_of_true ⟨fit_append.2 ⟨fit_whole hin, fit_blocks hin⟩, ?_, covers_whole⟩ trivial
    exact fit_append.2 ⟨fit_whole hout, fit_blocks hout⟩

end Plans

/-! ## Groups of sends and receives -/

/-- A receive whose device copy waits for the end of the group: its buffers, and the message, as long as its entry in
`recvBufferSizes`. -/
structure Receive where
  host : Nat
  addr : Nat
  bytes : List UInt8

/-- The two groups have one depth. `staging` is the memory of the receive buffers. -/
structure World where
  groupDepth : Nat
  sendBuffers : List StagedBuffer
  recvBuffers : List StagedBuffer
  staging : Nat → Buffer
  device : Buffer
  deferred : List Receive

/-- A send of so many bytes; a receive at a device address, with the message that the peer has sent. -/
inductive Call where
  | groupStart
  | groupEnd
  | send (size : Nat)
  | recv (addr : Nat) (bytes : List UInt8)

/-- The copies of `hostRunnerGroupEnd`. -/
def World.copyBack (w : World) : Buffer :=
  w.deferred.foldl (fun device d => device.write d.addr ((w.staging d.host).read 0 d.bytes.length)) w.device

/-- `hostRunnerGroupStart`, `hostRunnerGroupEnd`, `hostRunnerSend`, `hostRunnerRecv`. -/
def step (w : World) : Call → Option World
  | .groupStart => some { w with groupDepth := w.groupDepth + 1 }
  | .groupEnd =>
    if w.groupDepth = 0 then none
    else if w.groupDepth = 1 then
      some { w with groupDepth := 0, sendBuffers := w.sendBuffers.map ({ · with offset := 0 }),
                    recvBuffers := w.recvBuffers.map ({ · with offset := 0 }), device := w.copyBack, deferred := [] }
    else some { w with groupDepth := w.groupDepth - 1 }
  | .send size => (getStagedBuffer w.sendBuffers size).map fun out => { w with sendBuffers := out.2 }
  | .recv addr bytes => (getStagedBuffer w.recvBuffers bytes.length).map fun out =>
    let staging := update w.staging out.1 ((w.staging out.1).write 0 bytes)
    if w.groupDepth = 0 then
      { w with recvBuffers := out.2, staging := staging,
               device := w.device.write addr ((staging out.1).read 0 bytes.length) }
    else { w with recvBuffers := out.2, staging := staging, deferred := w.deferred ++ [⟨out.1, addr, bytes⟩] }

def start (staging : Nat → Buffer) (device : Buffer) : World := ⟨0, [], [], staging, device, []⟩

/-- The first staging buffer that is large enough for a message in a group holds no message of the group; and the messages go to
different places. -/
def Clear (w : World) : Call → Prop
  | .recv addr bytes => w.groupDepth ≠ 0 → ∀ d ∈ w.deferred, Buffer.Apart d.addr d.bytes.length addr bytes.length ∧
      (d.bytes = [] ∨ bytes = [] ∨ w.recvBuffers.findIdx? (fun sbuff => bytes.length ≤ sbuff.size - sbuff.offset) ≠ some d.host)
  | _ => True

/-- The messages of the group are in their staging buffers. -/
structure Pending (w : World) : Prop where
  closed : w.groupDepth = 0 → w.deferred = []
  hosts : ∀ d ∈ w.deferred, d.host < w.recvBuffers.length
  held : ∀ d ∈ w.deferred, (w.staging d.host).read 0 d.bytes.length = d.bytes
  apart : w.deferred.Pairwise fun d d' => Buffer.Apart d.addr d.bytes.length d'.addr d'.bytes.length

section Groups
variable {w w' : World}

theorem start_pending (staging : Nat → Buffer) (device : Buffer) : Pending (start staging device) where
  closed _ := rfl
  hosts _ hd := nomatch hd
  held _ hd := nomatch hd
  apart := List.Pairwise.nil

variable {d : Receive}

theorem Clear.other {addr i : Nat} {bytes : List UInt8} {buffers : List StagedBuffer} (hp : Pending w) (hc : Clear w (.recv addr bytes))
    (hdepth : w.groupDepth ≠ 0) (h : getStagedBuffer w.recvBuffers bytes.length = some (i, buffers))
    (hd : d ∈ w.deferred) : d.bytes = [] ∨ bytes = [] ∨ i ≠ d.host := by
  refine (hc hdepth d hd).2.imp_right (Or.imp_right fun hne heq => ?_)
  have hlt := hp.hosts d hd
  rw [getStagedBuffer] at h
  split at h
  · rename_i j hj
    simp only [some.injEq, Prod.mk.injEq] at h
    exact hne (by rw [hj, h.1, heq])
  · obtain ⟨n, -, hout⟩ := map_eq_some_iff.1 h
    simp only [Prod.mk.injEq] at hout
    omega

theorem step_pending (hp : Pending w) (c : Call) (hc : Clear w c) (h : step w c = some w') : Pending w' := by
  cases c with
  | groupStart =>
    obtain rfl := some.inj h
    exact { hp with closed := fun hzero => absurd hzero (Nat.succ_ne_zero _) }
  | groupEnd =>
    simp only [step] at h
    split at h
    · cases h
    split at h
    · obtain rfl := some.inj h
      exact ⟨fun _ => rfl, fun _ hd => (nomatch hd), fun _ hd => (nomatch hd), List.Pairwise.nil⟩
    · obtain rfl := some.inj h
      exact { hp with closed := fun hzero => by simp only at hzero; omega }
  | send size =>
    obtain ⟨out, -, rfl⟩ := map_eq_some_iff.1 h
    exact { hp with }
  | recv addr bytes =>
    obtain ⟨⟨i, buffers⟩, hout, rfl⟩ := map_eq_some_iff.1 h
    split
    · rename_i hzero
      have hnil := hp.closed hzero
      exact ⟨fun _ => hnil, by simp [hnil], by simp [hnil], by simp [hnil]⟩
    · rename_i hdepth
      have hlen : w.recvBuffers.length ≤ buffers.length ∧ i < buffers.length := by
        rw [getStagedBuffer] at hout
        split at hout
        · rename_i j hj
          obtain ⟨rfl, rfl⟩ := hout
          exact ⟨le_rfl, (findIdx?_eq_some_iff_getElem.1 hj).1⟩
        · obtain ⟨n, -, heq⟩ := map_eq_some_iff.1 hout
          obtain ⟨rfl, rfl⟩ := heq
          simp
      refine ⟨fun hzero => absurd hzero hdepth, ?_, ?_, ?_⟩
      · refine forall_mem_append.2 ⟨fun d hd => (hp.hosts d hd).trans_le hlen.1, ?_⟩
        simpa using hlen.2
      · refine forall_mem_append.2 ⟨fun d hd => ?_, ?_⟩
        · obtain hnil | hnil | hne := hc.other hp hdepth hout hd
          · simp [hnil, Buffer.read]
          · simp only [hnil, Buffer.write_nil, update_eq_self]
            exact hp.held d hd
          · simp only [update_of_ne (Ne.symm hne)]
            exact hp.held d hd
        · simp only [mem_singleton, forall_eq, update_self]
          exact Buffer.read_write
      · refine pairwise_append.2 ⟨hp.apart, pairwise_singleton _ _, fun d hd d' hd' => ?_⟩
        obtain rfl := mem_singleton.1 hd'
        exact (hc hdepth d hd).1

theorem foldl_write_apart {l : List Receive} {device : Buffer} {addr size : Nat}
    (h : ∀ d ∈ l, Buffer.Apart addr size d.addr d.bytes.length) :
    (l.foldl (fun device d => device.write d.addr d.bytes) device).read addr size = device.read addr size := by
  induction l generalizing device with
  | nil => rfl
  | cons d l ih =>
    obtain ⟨hd, hl⟩ := forall_mem_cons.1 h
    rw [foldl_cons, ih hl, Buffer.read_write_apart hd]

theorem foldl_write {l : List Receive} {device : Buffer}
    (h : l.Pairwise fun d d' => Buffer.Apart d.addr d.bytes.length d'.addr d'.bytes.length) (hd : d ∈ l) :
    (l.foldl (fun device d => device.write d.addr d.bytes) device).read d.addr d.bytes.length = d.bytes := by
  induction l generalizing device with
  | nil => cases hd
  | cons e l ih =>
    obtain ⟨he, hl⟩ := pairwise_cons.1 h
    obtain rfl | hd := mem_cons.1 hd
    · rw [foldl_cons, foldl_write_apart he, Buffer.read_write]
    · exact ih hl hd

theorem Pending.copyBack (hp : Pending w) (hd : d ∈ w.deferred) : w.copyBack.read d.addr d.bytes.length = d.bytes := by
  have hfold : w.copyBack = w.deferred.foldl (fun device d => device.write d.addr d.bytes) w.device :=
    foldl_ext _ _ _ fun device d hd => by rw [hp.held d hd]
  rw [hfold]
  exact foldl_write hp.apart hd

end Groups

/-- **Staging of the host runner.** A collective is sound with the staging buffers it is given exactly when it meets its condition;
and in every run whose receives are clear, the messages of a group are in their device buffers when the group ends. -/
theorem staging_sound (a : Args) (c : Collective) :
    (∀ (sends recvs sends' recvs' : List StagedBuffer) (i j : Nat) (sbuff rbuff : StagedBuffer),
      a.rank < a.nranks → Staged sends → Staged recvs → getStagedBuffer sends (plan a c).askIn = some (i, sends') →
      getStagedBuffer recvs (plan a c).askOut = some (j, recvs') → sends'[i]? = some sbuff → recvs'[j]? = some rbuff →
      (Staged sends' ∧ Staged recvs') ∧ ((plan a c).Sound sbuff.size rbuff.size ↔ Meets a sbuff.size rbuff.size c)) ∧
    ∀ (staging : Nat → Buffer) (device : Buffer) (w w' : World), Reach step Clear (start staging device) w →
      step w .groupEnd = some w' → w'.groupDepth = 0 →
      ∀ d ∈ w.deferred, w'.device.read d.addr d.bytes.length = d.bytes := by
  refine ⟨fun sends recvs sends' recvs' i j sbuff rbuff hrank hs hr hin hout hi hj => ?_, ?_⟩
  · obtain ⟨hs', ⟨sb, hsb, hsize⟩, -⟩ := getStagedBuffer_spec hs hin
    obtain ⟨hr', ⟨rb, hrb, hrsize⟩, -⟩ := getStagedBuffer_spec hr hout
    obtain rfl := some.inj (hi.symm.trans hsb)
    obtain rfl := some.inj (hj.symm.trans hrb)
    exact ⟨⟨hs', hr'⟩, plan_sound_iff c hrank hsize hrsize (hr' _ (mem_of_getElem? hj)).2⟩
  · intro staging device w w' hreach hend hzero d hd
    have hp : Pending w := hreach.invariant (start_pending staging device) fun _ _ c hp hc hstep => step_pending hp c hc hstep
    simp only [step] at hend
    split at hend
    · cases hend
    split at hend
    · obtain rfl := some.inj hend
      exact hp.copyBack hd
    · obtain rfl := some.inj hend
      simp only at hzero
      omega

/-- Rank `rank` of two in a call with root 0 and one byte for each rank. -/
def pairArgs (rank : Nat) : Args := ⟨2, rank, 0, 1, 1, fun _ => 1, id, fun _ => 1, id⟩

/-- The root of a gather, and a group with one receive. -/
theorem staging_sound_pair : (plan (pairArgs 0) .gather).Sound maxStagedBufferSize maxStagedBufferSize ∧
    ∃ w w', exec step (start (fun _ _ => 0) fun _ => 0) [.groupStart, .recv 4 [7]] = some w ∧ step w .groupEnd = some w' ∧
      w'.device.read 4 1 = [7] := by
  refine ⟨(((staging_sound (pairArgs 0) .gather).1 [] [] _ _ 0 0 ⟨0, maxStagedBufferSize⟩ ⟨0, maxStagedBufferSize⟩ (by decide)
    (fun _ h => nomatch h) (fun _ h => nomatch h) rfl rfl rfl rfl).2).2 (.inr ⟨rfl, by decide⟩), _, _, rfl, rfl, ?_⟩
  exact (staging_sound (pairArgs 0) .gather).2 (fun _ _ => 0) (fun _ => 0) _ _
    (.next (.recv 4 [7]) (.next .groupStart .init trivial rfl) (fun _ _ h => nomatch h) rfl) rfl rfl ⟨0, 4, [7]⟩
    (mem_singleton_self _)

/-- Another rank of a gather writes to its receive buffer; and the second receive of a group overwrites the message of the first. -/
theorem staging_unsound : (∀ capIn capOut, ¬ (plan (pairArgs 1) .gather).Sound capIn capOut) ∧
    ¬ ∀ w w', exec step (start (fun _ _ => 0) fun _ => 0) [.groupStart, .recv 4 [7], .recv 5 [8]] = some w →
      step w .groupEnd = some w' → ∀ d ∈ w.deferred, w'.device.read d.addr d.bytes.length = d.bytes := by
  refine ⟨fun capIn capOut h => ?_, fun h => ?_⟩
  · obtain ⟨r, hr, -⟩ := h.2.2 0 (by decide)
    exact not_mem_nil (show r ∈ [] from hr)
  · exact absurd (h _ _ rfl rfl ⟨0, 4, [7]⟩ (mem_cons_self ..)) (by decide)

end FlagCX.HostRunner
