import FlagCX.Bootstrap.RingReduce

/-!
# Reductions of the bootstrap (`AllReduceBootstrap`, `ReduceScatterBootstrap`, `ReduceBootstrap`)

* `chunksOf`         : the chunks of a buffer; `chunks_order`, `chunks_cover`.
* `AllReduceRight`, `ReduceScatterRight`, `ReduceRight` : what the three of them are to do.
* `reductions_right` : they do it for the types and operators that are supported, if an `int` holds the bytes of a chunk.

A rank has one memory, with its send and its receive buffer at any addresses. The send buffer is not read any more when the
receive buffer is written.
-/

namespace FlagCX.Bootstrap
open Lib List Function Option

variable {ν : Type}

/-! ## The programs -/

def tagReduce : Int := -9993

/-- `ChunkBytes`: the bytes of a chunk that is not one of the last, a multiple of the size of an element. -/
def chunkBytes (size nranks typeSize : Nat) : Nat := ((size + nranks - 1) / nranks + typeSize - 1) / typeSize * typeSize

/-- The chunks of `bootstrapRingAllReduce` and `bootstrapRingReduce`. -/
def chunksOf (size nranks typeSize : Nat) : Chunks where
  offset i := if chunkBytes size nranks typeSize * i ≥ size then size else chunkBytes size nranks typeSize * i
  length i :=
    if chunkBytes size nranks typeSize * i ≥ size then 0
    else if chunkBytes size nranks typeSize * (i + 1) ≥ size then size - chunkBytes size nranks typeSize * i
    else chunkBytes size nranks typeSize

/-- The chunks of `ReduceScatterBootstrap`. -/
def blocksOf (recvcount typeSize : Nat) : Chunks := ⟨fun i => i * recvcount * typeSize, fun _ => recvcount * typeSize⟩

/-- The `memmove` of a rank's chunk to its place. -/
def moveChunk (rank recvbuff : Nat) (c : Chunks) (mem : Buffer) : Buffer :=
  mem.write (recvbuff + c.offset rank) (mem.read recvbuff (c.length rank))

/-- A round of the AllGather in `bootstrapRingAllReduce`. -/
def allReduceRound (rank nranks recvbuff : Nat) (c : Chunks) (mem : Buffer) (i : Nat) : Coll Packet ν Buffer :=
  let sslice := (rank + nranks - i) % nranks
  let rslice := (rank + nranks - i - 1) % nranks
  bootstrapNetSendRecv (ringNext nranks rank) mem (recvbuff + c.offset sslice) (toInt (c.length sslice))
    (ringPrev nranks rank) mem (recvbuff + c.offset rslice) (toInt (c.length rslice))

/-- `bootstrapRingAllReduce`: the memory at the end. -/
def bootstrapRingAllReduce (float : FloatOps) (rank nranks sendbuff recvbuff count : Nat) (datatype : DataType) (op : RedOp)
    (mem : Buffer) : Coll Packet ν Buffer := do
  let c := chunksOf (count * getFlagcxDataTypeSize datatype) nranks (getFlagcxDataTypeSize datatype)
  let mem ← bootstrapRingReduceScatter float rank nranks sendbuff recvbuff c datatype op mem
  (range (nranks - 1)).foldlM (allReduceRound rank nranks recvbuff c) (moveChunk rank recvbuff c mem)

/-- The root receives the chunk of rank `i`. -/
def reduceGather (rank recvbuff : Nat) (c : Chunks) (mem : Buffer) (i : Nat) : Coll Packet ν Buffer :=
  if i = rank then .done mem else bootstrapRecv i tagReduce mem (recvbuff + c.offset i) (toInt (c.length i))

/-- `bootstrapRingReduce`: the memory at the end. -/
def bootstrapRingReduce (float : FloatOps) (rank nranks sendbuff recvbuff count : Nat) (datatype : DataType) (op : RedOp)
    (root : Nat) (mem : Buffer) : Coll Packet ν Buffer := do
  let c := chunksOf (count * getFlagcxDataTypeSize datatype) nranks (getFlagcxDataTypeSize datatype)
  let mem ← bootstrapRingReduceScatter float rank nranks sendbuff recvbuff c datatype op mem
  let mem := moveChunk rank recvbuff c mem
  if rank = root then (range nranks).foldlM (reduceGather rank recvbuff c) mem
  else do
    bootstrapSend root tagReduce mem (recvbuff + c.offset rank) (toInt (c.length rank))
    .done mem

def copyAlone (sendbuff recvbuff size : Nat) (mem : Buffer) : Buffer :=
  if sendbuff ≠ recvbuff then mem.write recvbuff (mem.read sendbuff size) else mem

/-- `AllReduceBootstrap`: the memory at the end. -/
def AllReduceBootstrap (float : FloatOps) (rank nranks sendbuff recvbuff count : Nat) (datatype : DataType) (op : RedOp)
    (mem : Buffer) : Coll Packet ν Buffer :=
  if nranks = 1 then .done (copyAlone sendbuff recvbuff (count * getFlagcxDataTypeSize datatype) mem)
  else bootstrapRingAllReduce float rank nranks sendbuff recvbuff count datatype op mem

/-- `ReduceBootstrap`: the memory at the end. -/
def ReduceBootstrap (float : FloatOps) (rank nranks sendbuff recvbuff count : Nat) (datatype : DataType) (op : RedOp) (root : Nat)
    (mem : Buffer) : Coll Packet ν Buffer :=
  if nranks = 1 then .done (copyAlone sendbuff recvbuff (count * getFlagcxDataTypeSize datatype) mem)
  else bootstrapRingReduce float rank nranks sendbuff recvbuff count datatype op root mem

/-- `ReduceScatterBootstrap`: the memory at the end. -/
def ReduceScatterBootstrap (float : FloatOps) (rank nranks sendbuff recvbuff recvcount : Nat) (datatype : DataType) (op : RedOp)
    (mem : Buffer) : Coll Packet ν Buffer :=
  let c := blocksOf recvcount (getFlagcxDataTypeSize datatype)
  if nranks = 1 then .done (copyAlone sendbuff recvbuff (recvcount * getFlagcxDataTypeSize datatype) mem)
  else bootstrapRingReduceScatter float rank nranks sendbuff recvbuff c datatype op mem

/-! ## Chunks -/

section Chunks
variable {count nranks typeSize i j : Nat}

def chunkElements (count nranks typeSize : Nat) : Nat := ((count * typeSize + nranks - 1) / nranks + typeSize - 1) / typeSize

def chunkFirst (count nranks typeSize i : Nat) : Nat := min (chunkElements count nranks typeSize * i) count

theorem chunkBytes_mul : chunkBytes (count * typeSize) nranks typeSize * i = chunkElements count nranks typeSize * i * typeSize :=
  Nat.mul_right_comm _ _ _

theorem chunks_offset (htype : 0 < typeSize) :
    (chunksOf (count * typeSize) nranks typeSize).offset i = chunkFirst count nranks typeSize i * typeSize := by
  simp only [chunksOf, chunkBytes_mul, chunkFirst, ge_iff_le, Nat.mul_le_mul_right_iff htype]
  split_ifs with h
  · rw [Nat.min_eq_right h]
  · rw [Nat.min_eq_left (by omega)]

theorem chunks_length (htype : 0 < typeSize) : (chunksOf (count * typeSize) nranks typeSize).length i =
    (chunkFirst count nranks typeSize (i + 1) - chunkFirst count nranks typeSize i) * typeSize := by
  have hwhole : chunkBytes (count * typeSize) nranks typeSize = chunkElements count nranks typeSize * typeSize := rfl
  simp only [chunksOf, chunkBytes_mul, chunkFirst, ge_iff_le, Nat.mul_le_mul_right_iff htype]
  split_ifs with h h'
  · have hnext : count ≤ chunkElements count nranks typeSize * (i + 1) := h.trans (Nat.mul_le_mul_left _ (Nat.le_succ i))
    rw [Nat.min_eq_right h, Nat.min_eq_right hnext, Nat.sub_self, Nat.zero_mul]
  · rw [Nat.min_eq_right h', Nat.min_eq_left (by omega), Nat.sub_mul]
  · rw [Nat.min_eq_left (by omega), Nat.min_eq_left (by omega), Nat.mul_succ, Nat.add_sub_cancel_left, hwhole]

theorem chunkFirst_mono (h : i ≤ j) : chunkFirst count nranks typeSize i ≤ chunkFirst count nranks typeSize j := by
  have hle := Nat.mul_le_mul_left (chunkElements count nranks typeSize) h
  rw [chunkFirst, chunkFirst]
  omega

theorem chunks_order (htype : 0 < typeSize) (hij : i < j) :
    (chunksOf (count * typeSize) nranks typeSize).offset i + (chunksOf (count * typeSize) nranks typeSize).length i ≤
      (chunksOf (count * typeSize) nranks typeSize).offset j := by
  have hfirst : chunkFirst count nranks typeSize i ≤ chunkFirst count nranks typeSize (i + 1) := chunkFirst_mono (Nat.le_succ i)
  rw [chunks_offset htype, chunks_length htype, chunks_offset htype, ← Nat.add_mul, Nat.add_sub_cancel' hfirst]
  exact Nat.mul_le_mul_right typeSize (chunkFirst_mono hij)

theorem chunks_apart (htype : 0 < typeSize) (hij : i ≠ j) (base : Nat) :
    let c := chunksOf (count * typeSize) nranks typeSize
    Buffer.Apart (base + c.offset i) (c.length i) (base + c.offset j) (c.length j) := by
  intro c k hk k' hk'
  have horder : ∀ {i j}, i < j → c.offset i + c.length i ≤ c.offset j := fun hij => chunks_order htype hij
  rcases Nat.lt_or_gt_of_ne hij with hlt | hgt
  · have := horder hlt
    omega
  · have := horder hgt
    omega

theorem le_div_mul {a b : Nat} (hb : 0 < b) : a ≤ (a + b - 1) / b * b := by
  have hmod := Nat.mod_lt (a + b - 1) hb
  have hdiv := Nat.div_add_mod (a + b - 1) b
  rw [Nat.mul_comm] at hdiv
  omega

theorem le_chunkElements (hranks : 0 < nranks) (htype : 0 < typeSize) : count ≤ chunkElements count nranks typeSize * nranks := by
  refine Nat.le_of_mul_le_mul_right ?_ htype
  calc count * typeSize ≤ (count * typeSize + nranks - 1) / nranks * nranks := le_div_mul hranks
    _ ≤ chunkElements count nranks typeSize * typeSize * nranks := Nat.mul_le_mul_right nranks (le_div_mul htype)
    _ = chunkElements count nranks typeSize * nranks * typeSize := Nat.mul_right_comm _ _ _

/-- **Every element is in one of the chunks.** -/
theorem chunks_cover (hranks : 0 < nranks) (htype : 0 < typeSize) {e : Nat} (he : e < count) :
    ∃ i < nranks, ∃ j < (chunksOf (count * typeSize) nranks typeSize).length i / typeSize,
      (chunksOf (count * typeSize) nranks typeSize).offset i + j * typeSize = e * typeSize := by
  let q := chunkElements count nranks typeSize
  have hall : count ≤ q * nranks := le_chunkElements hranks htype
  have hpos : 0 < q := Nat.pos_of_mul_pos_right (show 0 < q * nranks by omega)
  have hbelow : q * (e / q) ≤ e := Nat.mul_div_le e q
  have habove : e < q * (e / q + 1) := Nat.lt_mul_div_succ e hpos
  have hfirst : chunkFirst count nranks typeSize (e / q) = q * (e / q) := min_eq_left (show q * (e / q) ≤ count by omega)
  have hnext : e < chunkFirst count nranks typeSize (e / q + 1) := Nat.lt_min.2 ⟨habove, he⟩
  refine ⟨e / q, Nat.div_lt_of_lt_mul (by omega), e - q * (e / q), ?_, ?_⟩
  · rw [chunks_length htype, Nat.mul_div_cancel _ htype, hfirst]
    omega
  · rw [chunks_offset htype, hfirst, ← Nat.add_mul, Nat.add_sub_cancel' hbelow]

end Chunks

/-! ## What they are to do -/

/-- The arguments of a reduction that are the same on all ranks. -/
structure ReduceArgs where
  nranks : Nat
  count : Nat
  datatype : DataType
  op : RedOp

namespace ReduceArgs
variable (a : ReduceArgs) (float : FloatOps) (mem : Nat → Buffer) (sendbuff recvbuff : Nat → Nat)

abbrev typeSize : Nat := getFlagcxDataTypeSize a.datatype

def chunks : Chunks := chunksOf (a.count * a.typeSize) a.nranks a.typeSize

/-- The chunks of ReduceScatter, where `count` is `recvcount`. -/
def blocks : Chunks := blocksOf a.count a.typeSize

/-- All ranks call `AllReduceBootstrap`. -/
def allReduce : Network Nat Port Packet Empty Result Buffer := .start fun r =>
  if r < a.nranks then AllReduceBootstrap float r a.nranks (sendbuff r) (recvbuff r) a.count a.datatype a.op (mem r)
  else .done (mem r)

/-- All ranks call `ReduceScatterBootstrap`. -/
def reduceScatter : Network Nat Port Packet Empty Result Buffer := .start fun r =>
  if r < a.nranks then ReduceScatterBootstrap float r a.nranks (sendbuff r) (recvbuff r) a.count a.datatype a.op (mem r)
  else .done (mem r)

/-- All ranks call `ReduceBootstrap`. -/
def reduce (root : Nat) : Network Nat Port Packet Empty Result Buffer := .start fun r =>
  if r < a.nranks then ReduceBootstrap float r a.nranks (sendbuff r) (recvbuff r) a.count a.datatype a.op root (mem r)
  else .done (mem r)

/-- Element `e` from `base` on is the result for element `e'` of all send buffers. -/
def Holds (m : Buffer) (base e e' : Nat) : Prop :=
  Reduced float a.datatype a.op (fun i => load a.typeSize (mem i) (sendbuff i + e' * a.typeSize)) a.nranks
    (load a.typeSize m (base + e * a.typeSize))

/-- Every run ends, and then all ranks have the whole result. -/
def AllReduceRight : Prop := ∀ mem sendbuff recvbuff, (a.allReduce float mem sendbuff recvbuff).Settles fun n' => ∀ r < a.nranks,
  ∃ m, n'.procs r = .done m ∧ ∀ e < a.count, a.Holds float mem sendbuff m (recvbuff r) e e

/-- Every run ends, and then every rank has its block of the result. -/
def ReduceScatterRight : Prop := ∀ mem sendbuff recvbuff, (a.reduceScatter float mem sendbuff recvbuff).Settles fun n' =>
  ∀ r < a.nranks, ∃ m, n'.procs r = .done m ∧ ∀ e < a.count, a.Holds float mem sendbuff m (recvbuff r) e (r * a.count + e)

/-- Every run ends with all ranks at their ends, and then the root has the whole result. -/
def ReduceRight (root : Nat) : Prop := ∀ mem sendbuff recvbuff, (a.reduce float mem sendbuff recvbuff root).Settles fun n' =>
  ∀ r < a.nranks, ∃ m, n'.procs r = .done m ∧ (r = root → ∀ e < a.count, a.Holds float mem sendbuff m (recvbuff r) e e)

/-- In every step of the rings a rank sends as many bytes as the next one expects. -/
def StepsAgree (c : Chunks) : Prop := ∀ r < a.nranks, ∀ k < a.nranks - 1,
  c.length (sendChunkNo r a.nranks k) = c.length (recvChunkNo (ringNext a.nranks r) a.nranks k) ∧
    c.length ((r + a.nranks - k) % a.nranks) = c.length ((ringNext a.nranks r + a.nranks - k - 1) % a.nranks)

/-- The type and the operator are supported, and an `int` holds the bytes of a chunk. -/
structure Fits (c : Chunks) : Prop where
  ranks : 2 ≤ a.nranks
  op : a.op.accepted = true
  datatype : a.datatype.reducible = true
  length : ∀ i < a.nranks, c.length i < 2 ^ 31

variable {a float mem sendbuff recvbuff}

theorem stepsAgree (a : ReduceArgs) (c : Chunks) : a.StepsAgree c := by
  intro r hr k hk
  have hslice := slice_prev (ringNext_lt hr) (show k + 1 < a.nranks by omega)
  rw [ringPrev_next hr] at hslice
  exact ⟨congrArg c.length (sendChunkNo_next hr (by omega)), congrArg c.length hslice⟩

/-! ## They do it -/

abbrev reduction (a : ReduceArgs) (c : Chunks) : Reduction := ⟨a.nranks, c, a.datatype, a.op⟩

section Chunked
variable {f : BitVec (8 * a.typeSize) → BitVec (8 * a.typeSize) → BitVec (8 * a.typeSize)} {c : Chunks}

theorem Fits.operation (h : a.Fits c) (float : FloatOps) :
    ∃ f, reduceElement float a.datatype (8 * a.typeSize) a.op = some f :=
  isSome_iff_exists.1 (reduceElement_isSome.2 ⟨h.op, h.datatype⟩)

def scattered (a : ReduceArgs) (mem : Nat → Buffer) (sendbuff recvbuff : Nat → Nat) (c : Chunks)
    (f : BitVec (8 * a.typeSize) → BitVec (8 * a.typeSize) → BitVec (8 * a.typeSize)) (r : Nat) : Buffer :=
  (mem r).write (recvbuff r) (((a.reduction c).after mem sendbuff f (a.nranks - 1) r).dataForRecv.read 0 (c.length r))

theorem holds_of_chunks (recvbuff : Nat → Nat) (h : a.Fits a.chunks)
    (hf : reduceElement float a.datatype (8 * a.typeSize) a.op = some f) {m : Buffer} {base : Nat} (hm : ∀ i < a.nranks, m.read (base + a.chunks.offset i) (a.chunks.length i) =
      (moveChunk i (recvbuff i) a.chunks (a.scattered mem sendbuff recvbuff a.chunks f i)).read (recvbuff i + a.chunks.offset i)
        (a.chunks.length i)) {e : Nat} (he : e < a.count) : a.Holds float mem sendbuff m base e e := by
  have hranks : 0 < a.nranks := Nat.lt_of_lt_of_le (by decide) h.ranks
  obtain ⟨i, hi, j, hj, hplace⟩ := chunks_cover hranks (typeSize_pos a.datatype) he
  have hread : m.read (base + a.chunks.offset i) (a.chunks.length i) =
      ((a.reduction a.chunks).after mem sendbuff f (a.nranks - 1) i).dataForRecv.read 0 (a.chunks.length i) := by
    rw [hm i hi, moveChunk, Buffer.read_write_read, scattered, Buffer.read_write_read]
  have hload := load_of_read hread (Reduction.element_le hj)
  rw [Nat.zero_add, Nat.add_assoc, show a.chunks.offset i + j * a.typeSize = e * a.typeSize from hplace] at hload
  have hreduces := (a.reduction a.chunks).reduces mem sendbuff f h.ranks hi hj
  rw [← hload, show a.chunks.offset i + j * a.typeSize = e * a.typeSize from hplace] at hreduces
  exact hreduces.reduced hf

/-- **AllReduce.** -/
theorem Fits.allReduce_right (h : a.Fits a.chunks) : a.AllReduceRight float := by
  intro mem sendbuff recvbuff
  obtain ⟨f, hf⟩ := h.operation float
  have hranks : a.nranks ≠ 1 := fun hone => by
    have := h.ranks
    omega
  let s : Slices := ⟨a.nranks, fun r i => recvbuff r + a.chunks.offset i, a.chunks.length⟩
  let moved : Nat → Buffer := fun r => moveChunk r (recvbuff r) a.chunks (a.scattered mem sendbuff recvbuff a.chunks f r)
  let gather : Nat → Coll Packet Empty Buffer := fun r => if r < a.nranks then
    (range (a.nranks - 1)).foldlM (allReduceRound r a.nranks (recvbuff r) a.chunks) (moved r) else .done (mem r)
  have hscatter : ∃ as, exec Network.step (a.allReduce float mem sendbuff recvbuff) as =
      some (Network.quiet gather fun _ => []) := by
    obtain ⟨as, hexec⟩ := (a.reduction a.chunks).run hf h.length recvbuff (a.allReduce float mem sendbuff recvbuff).procs
      (fun _ => []) (fun r m => (range (a.nranks - 1)).foldlM (allReduceRound r a.nranks (recvbuff r) a.chunks)
        (moveChunk r (recvbuff r) a.chunks m)) fun r hr => by
          refine (if_pos hr).trans ?_
          rw [AllReduceBootstrap, if_neg hranks]
          rfl
    refine ⟨as, hexec.trans (congrArg (fun procs => some (Network.quiet procs fun _ => [])) (funext fun r => ?_))⟩
    split_ifs with hr
    · exact (if_pos hr).symm
    · exact (if_neg hr).trans (if_neg hr).symm
  have hgather : ∃ bs, exec Network.step (Network.quiet gather fun _ => []) bs = some (Network.quiet (fun r =>
      if r < a.nranks then .done (s.after moved (a.nranks - 1) r) else gather r) fun _ => []) :=
    s.run moved gather (fun _ => []) (fun _ m => .done m) fun r hr => by
      rw [Proc.bind_done]
      refine (if_pos hr).trans ?_
      refine foldlM_congr (fun m k _ => ?_) _
      have hint : ∀ j, toInt (a.chunks.length ((r + a.nranks - j) % a.nranks)) =
          a.chunks.length ((r + a.nranks - j) % a.nranks) := fun j => toInt_of_lt (h.length _ (slice_lt hr))
      rw [allReduceRound, hint, Nat.sub_sub, hint]
      rfl
  obtain ⟨as, hexec⟩ := hscatter
  obtain ⟨bs, hexec'⟩ := hgather
  have hrun := (exec_append ..).trans ((congrArg (·.bind fun n => exec Network.step n bs) hexec).trans hexec')
  refine .of_run hrun (fun r => ?_) fun r hr => ⟨_, if_pos hr, fun e he => holds_of_chunks recvbuff h hf (fun i hi => ?_) he⟩
  · by_cases hr : r < a.nranks
    · exact Network.step_done (if_pos hr)
    · exact Network.step_done ((if_neg hr).trans (if_neg hr))
  · have hapart : s.Apart := fun _ _ _ _ _ _ hij => chunks_apart (typeSize_pos _) hij _
    exact Slices.all hapart hr hi

/-- **ReduceScatter.** -/
theorem Fits.reduceScatter_right (h : a.Fits a.blocks) : a.ReduceScatterRight float := by
  intro mem sendbuff recvbuff
  obtain ⟨f, hf⟩ := h.operation float
  have hranks : a.nranks ≠ 1 := fun hone => by
    have := h.ranks
    omega
  obtain ⟨as, hexec⟩ := (a.reduction a.blocks).run hf h.length recvbuff (a.reduceScatter float mem sendbuff recvbuff).procs
    (fun _ => []) (fun _ m => .done m) fun r hr => by
      rw [Proc.bind_done]
      refine (if_pos hr).trans ?_
      rw [ReduceScatterBootstrap, if_neg hranks]
      rfl
  refine .of_run hexec (fun r => ?_) fun r hr => ⟨_, if_pos hr, fun e he => ?_⟩
  · by_cases hr : r < a.nranks
    · exact Network.step_done (if_pos hr)
    · exact Network.step_done ((if_neg hr).trans (if_neg hr))
  · have hj : e < a.blocks.length r / a.typeSize := by
      rw [show a.blocks.length r = a.count * a.typeSize from rfl, Nat.mul_div_cancel _ (typeSize_pos _)]
      exact he
    have hplace : a.blocks.offset r + e * a.typeSize = (r * a.count + e) * a.typeSize := (Nat.add_mul _ _ _).symm
    have hreduces := (a.reduction a.blocks).reduces mem sendbuff f h.ranks hr hj
    rw [hplace] at hreduces
    have hread : (a.scattered mem sendbuff recvbuff a.blocks f r).read (recvbuff r) (a.blocks.length r) =
        ((a.reduction a.blocks).after mem sendbuff f (a.nranks - 1) r).dataForRecv.read 0 (a.blocks.length r) :=
      Buffer.read_write_read
    have hload := load_of_read hread (Reduction.element_le hj)
    rw [Nat.zero_add] at hload
    rw [← hload] at hreduces
    exact hreduces.reduced hf

/-! ### Reduce -/

/-- What a rank sends to the root. -/
def chunkPacket (a : ReduceArgs) (moved : Nat → Buffer) (recvbuff : Nat → Nat) (r : Nat) : Packet :=
  .message (a.chunks.length r) ((moved r).read (recvbuff r + a.chunks.offset r) (a.chunks.length r))

/-- The memory of the root when it has received from the first `k` ranks. -/
def gathered (a : ReduceArgs) (moved : Nat → Buffer) (recvbuff : Nat → Nat) (root : Nat) : Nat → Buffer
  | 0 => moved root
  | k + 1 => if k = root then gathered a moved recvbuff root k else (gathered a moved recvbuff root k).write
      (recvbuff root + a.chunks.offset k) ((moved k).read (recvbuff k + a.chunks.offset k) (a.chunks.length k))

theorem gathered_read (a : ReduceArgs) (moved : Nat → Buffer) (recvbuff : Nat → Nat) (root : Nat) {k i : Nat}
    (hi : i < k ∨ i = root) : (a.gathered moved recvbuff root k).read (recvbuff root + a.chunks.offset i) (a.chunks.length i) =
      (moved i).read (recvbuff i + a.chunks.offset i) (a.chunks.length i) := by
  induction k with
  | zero =>
    rw [hi.resolve_left (Nat.not_lt_zero i)]
    rfl
  | succ k ih =>
    rw [gathered]
    split_ifs with hk
    · exact ih (by omega)
    · by_cases hik : i = k
      · rw [hik, Buffer.read_write_read]
      · rw [Buffer.read_write_apart]
        · exact ih (by omega)
        · rw [Buffer.length_read]
          exact chunks_apart (typeSize_pos _) hik _

/-- What the root does with rank `i`. -/
def rootEvents (a : ReduceArgs) (moved : Nat → Buffer) (recvbuff : Nat → Nat) (root i : Nat) :
    List (Event Nat Port Packet Empty) :=
  if i = root then [] else [.got i (.tag tagReduce) (a.chunkPacket moved recvbuff i)]

/-- What another rank does. -/
def senderEvents (a : ReduceArgs) (moved : Nat → Buffer) (recvbuff : Nat → Nat) (root r : Nat) :
    List (Event Nat Port Packet Empty) :=
  if r < a.nranks ∧ r ≠ root then [.sent root (.tag tagReduce) (a.chunkPacket moved recvbuff r)] else []

theorem gather_run (h : a.Fits a.chunks) {root : Nat} (hroot : root < a.nranks) (moved : Nat → Buffer) (recvbuff : Nat → Nat)
    {procs : Nat → Coll Packet Empty Buffer}
    (hprocs : ∀ r < a.nranks, procs r = if r = root then
      (range a.nranks).foldlM (reduceGather r (recvbuff r) a.chunks) (moved r)
    else do
      bootstrapSend root tagReduce (moved r) (recvbuff r + a.chunks.offset r) (toInt (a.chunks.length r))
      .done (moved r)) :
    ∃ as n', exec Network.step (Network.quiet procs fun _ => []) as = some n' ∧
      n'.procs root = .done (a.gathered moved recvbuff root a.nranks) ∧
      (∀ r < a.nranks, r ≠ root → n'.procs r = .done (moved r)) ∧ ∀ r, a.nranks ≤ r → n'.procs r = procs r := by
  have hint : ∀ r < a.nranks, toInt (a.chunks.length r) = a.chunks.length r := fun r hr => toInt_of_lt (h.length r hr)
  -- the others send
  have hsend : ∀ r < a.nranks, r ≠ root → Path (procs r) (a.senderEvents moved recvbuff root r) (.done (moved r)) := by
    intro r hr hne
    rw [hprocs r hr, if_neg hne, senderEvents, if_pos ⟨hr, hne⟩, bootstrapSend, hint r hr, Int.toNat_natCast]
    exact .send (.refl _)
  obtain ⟨as, n₁, hexec, hh⟩ := Network.reach (n := Network.quiet procs fun _ => []) (h := a.senderEvents moved recvbuff root)
    ((range a.nranks).filter (· ≠ root)) (nodup_range.filter _) (fun r => .done (moved r))
    (fun r hr => by
      obtain ⟨hlt, hne⟩ := mem_filter.1 hr
      exact hsend r (mem_range.1 hlt) (by simpa using hne))
    (fun r hr => if_neg fun ⟨hlt, hne⟩ => hr (mem_filter.2 ⟨mem_range.2 hlt, by simpa using hne⟩))
    (fun r b port => by
      have hnone : gotFrom b port (a.senderEvents moved recvbuff root r) = [] := by
        rw [senderEvents]
        split_ifs <;> rfl
      rw [hnone]
      exact nil_prefix)
  have hidle : a.senderEvents moved recvbuff root root = [] := if_neg fun hne => hne.2 rfl
  have hstay : ∀ r, a.senderEvents moved recvbuff root r = [] → n₁.procs r = procs r := fun r hr => hh.procs (by
    rw [hr]
    exact .refl _)
  have hchan : ∀ i port, n₁.chans (i, root, port) = sentTo root port (a.senderEvents moved recvbuff root i) := fun i port => by
    have hchans := hh.chans i root port
    rw [hidle] at hchans
    exact hchans.symm
  -- the root receives
  have hpath : Path (n₁.procs root) ((range a.nranks).flatMap (a.rootEvents moved recvbuff root))
      (.done (a.gathered moved recvbuff root a.nranks)) := by
    rw [hstay root hidle, hprocs root hroot, if_pos rfl]
    refine Path.foldlM_run (a.gathered moved recvbuff root) fun i hi => ?_
    rw [reduceGather, rootEvents, gathered]
    split_ifs
    · exact .refl _
    · have hmessage := bootstrapNetRecv_message (ν := Empty) (a.gathered moved recvbuff root i) (moved i)
        (recvbuff root + a.chunks.offset i) (recvbuff i + a.chunks.offset i) (a.chunks.length i)
      rw [Int.toNat_natCast] at hmessage
      rw [hint i hi]
      refine .recv ?_
      rw [chunkPacket, hmessage]
      exact .refl _
  obtain ⟨bs, n₂, hexec', hh'⟩ := Network.follow hpath fun i port => by
    rw [hchan, gotFrom_flatMap]
    by_cases hi : i < a.nranks ∧ i ≠ root
    · rw [flatMap_single nodup_range (mem_range.2 hi.1), rootEvents, if_neg hi.2, senderEvents, if_pos hi]
      · simp only [gotFrom, sentTo, filterMap_cons, filterMap_nil, true_and]
        exact prefix_rfl
      · intro j _ hj
        rw [rootEvents]
        split_ifs
        · rfl
        · simp [gotFrom, hj]
    · rw [flatMap_eq_nil_iff.2]
      · exact nil_prefix
      · intro j hj
        rw [rootEvents]
        split_ifs with hjr
        · rfl
        · have hne : j ≠ i := fun heq => hi (heq ▸ ⟨mem_range.1 hj, hjr⟩)
          simp [gotFrom, hne]
  refine ⟨as ++ bs, n₂, ?_, hh'.procs (by rw [update_self]; exact hpath), fun r hr hne => ?_, fun r hr => ?_⟩
  · rw [exec_append, hexec]
    exact hexec'
  · refine (hh'.procs (by rw [update_of_ne hne]; exact .refl _)).trans ?_
    exact hh.procs (hsend r hr hne)
  · have hne : r ≠ root := by omega
    refine (hh'.procs (by rw [update_of_ne hne]; exact .refl _)).trans ?_
    exact hstay r (if_neg fun hlt => by omega)

/-- **Reduce.** -/
theorem Fits.reduce_right (h : a.Fits a.chunks) {root : Nat} (hroot : root < a.nranks) : a.ReduceRight float root := by
  intro mem sendbuff recvbuff
  obtain ⟨f, hf⟩ := h.operation float
  have hranks : a.nranks ≠ 1 := fun hone => by
    have := h.ranks
    omega
  let moved : Nat → Buffer := fun r => moveChunk r (recvbuff r) a.chunks (a.scattered mem sendbuff recvbuff a.chunks f r)
  obtain ⟨as, hexec⟩ := (a.reduction a.chunks).run hf h.length recvbuff (a.reduce float mem sendbuff recvbuff root).procs
    (fun _ => []) (fun r m =>
      let m := moveChunk r (recvbuff r) a.chunks m
      if r = root then (range a.nranks).foldlM (reduceGather r (recvbuff r) a.chunks) m
      else do
        bootstrapSend root tagReduce m (recvbuff r + a.chunks.offset r) (toInt (a.chunks.length r))
        .done m) fun r hr => by
          refine (if_pos hr).trans ?_
          rw [ReduceBootstrap, if_neg hranks]
          rfl
  obtain ⟨bs, n', hexec', hself, hother, hrest⟩ := a.gather_run h hroot moved recvbuff fun r hr => if_pos hr
  have hrun := (exec_append ..).trans ((congrArg (·.bind fun n => exec Network.step n bs) hexec).trans hexec')
  refine .of_run hrun (fun r => ?_) fun r hr => ?_
  · by_cases hr : r < a.nranks
    · by_cases hne : r = root
      · rw [hne]
        exact Network.step_done hself
      · exact Network.step_done (hother r hr hne)
    · exact Network.step_done ((hrest r (not_lt.1 hr)).trans ((if_neg hr).trans (if_neg hr)))
  · by_cases hne : r = root
    · rw [hne]
      exact ⟨_, hself, fun _ e he => holds_of_chunks recvbuff h hf (fun i hi => a.gathered_read moved recvbuff root (.inl hi)) he⟩
    · exact ⟨_, hother r hr hne, fun heq => absurd heq hne⟩

end Chunked

/-! ### Types that are not supported -/

theorem chunk_zero_length (hranks : 0 < a.nranks) (hcount : 0 < a.count) : a.chunks.length 0 ≠ 0 := by
  have hall : a.count ≤ chunkElements a.count a.nranks a.typeSize * a.nranks := le_chunkElements hranks (typeSize_pos _)
  have hpos : 0 < chunkElements a.count a.nranks a.typeSize := Nat.pos_of_mul_pos_right (show 0 < _ * a.nranks by omega)
  rw [chunks, chunks_length (typeSize_pos _), chunkFirst, chunkFirst, Nat.zero_add, Nat.mul_one, Nat.mul_zero, Nat.zero_min]
  exact Nat.mul_ne_zero (Nat.lt_min.2 ⟨hpos, hcount⟩).ne' (typeSize_pos _).ne'

theorem allReduce_not_right (hranks : 2 ≤ a.nranks) (hcount : 0 < a.count)
    (hnone : reduceElement float a.datatype (8 * a.typeSize) a.op = none) : ¬ a.AllReduceRight float := by
  intro h
  obtain ⟨as, n', hexec, -, hQ⟩ := (h (fun _ _ => 0) (fun _ => 0) fun _ => 0).exists_run
  -- the rank that receives chunk 0 first
  have hr : 2 % a.nranks < a.nranks := Nat.mod_lt _ (by omega)
  have hno : recvChunkNo (2 % a.nranks) a.nranks 0 = 0 := by
    rw [recvChunkNo]
    rcases Nat.lt_or_eq_of_le hranks with hlt | heq
    · rw [Nat.mod_eq_of_lt hlt, show 2 + 2 * a.nranks - 0 - 2 = a.nranks * 2 by omega, Nat.mul_mod_right]
    · rw [← heq]
  obtain ⟨m, hm, -⟩ := hQ _ hr
  obtain ⟨hs, hh, -⟩ := Network.histories hexec
  have hpath := hh.path (2 % a.nranks)
  rw [hm, show (a.allReduce float (fun _ _ => 0) (fun _ => 0) fun _ => 0).procs (2 % a.nranks) = _ from if_pos hr,
    AllReduceBootstrap, if_neg (by omega), bootstrapRingAllReduce] at hpath
  obtain ⟨_, _, _, -, hscatter, -⟩ := hpath.bind_done
  obtain ⟨_, _, _, -, hloop, -⟩ := hscatter.bind_done
  rw [range_eq_range', show a.nranks - 1 = a.nranks - 2 + 1 by omega, range'_succ, foldlM_cons] at hloop
  obtain ⟨_, _, _, -, hround, -⟩ := hloop.bind_done
  rw [reduceScatterRound, hno] at hround
  obtain ⟨_, _, _, -, -, hreduce⟩ := hround.bind_done
  have hchunk := chunk_zero_length (a := a) (by omega) hcount
  rw [reduceRecv, if_neg (by exact hchunk), hnone] at hreduce
  cases hreduce

end ReduceArgs

/-- **Reductions on the ring**, wherever the buffers are and whatever they hold. -/
theorem reductions_right (float : FloatOps) (a : ReduceArgs) :
    (a.Fits a.chunks → a.AllReduceRight float ∧ ∀ root < a.nranks, a.ReduceRight float root) ∧
      (a.Fits a.blocks → a.ReduceScatterRight float) ∧ ∀ c, a.StepsAgree c :=
  ⟨fun h => ⟨h.allReduce_right, fun _ hroot => h.reduce_right hroot⟩, fun h => h.reduceScatter_right, a.stepsAgree⟩

/-- What `float` and `double` would compute if a sum, a maximum and a minimum were their first operand. -/
def firstOperand : FloatOps := ⟨fun _ a _ => a, fun _ a _ => a, fun _ a _ => a⟩

def integers : ReduceArgs := ⟨3, 2, .int32, .sum⟩

theorem reductions_right_integers : integers.AllReduceRight firstOperand ∧ integers.ReduceRight firstOperand 2 ∧
    integers.ReduceScatterRight firstOperand := by
  have hfits : integers.Fits integers.chunks := ⟨by decide, by decide, by decide, by decide⟩
  have hfits' : integers.Fits integers.blocks := ⟨by decide, by decide, by decide, by decide⟩
  obtain ⟨hchunks, hblocks, -⟩ := reductions_right firstOperand integers
  exact ⟨(hchunks hfits).1, (hchunks hfits).2 2 (by decide), hblocks hfits'⟩

/-- Two ranks with one number of 16 bits. -/
def halves : ReduceArgs := ⟨2, 1, .float16, .sum⟩

theorem halves_not_right : ¬ halves.AllReduceRight firstOperand := ReduceArgs.allReduce_not_right (by decide) (by decide) rfl

end FlagCX.Bootstrap
