import FlagCX.Bootstrap.Elements
import FlagCX.Bootstrap.Slices

/-!
# Reduce-scatter on the ring (`bootstrapRingReduceScatter`)

* `bootstrapRingReduceScatter` : the program. The partial results go round in two buffers that are swapped.
* `sendChunkNo_next`           : what a rank sends is what the next one expects.
* `Reduction.run`              : all iterations, whatever the ranks do afterwards.
* `Reduction.reduces`          : in the end a rank has the results of all.

The allocations are taken to succeed, and the new buffers to lie apart from all others.
-/

namespace FlagCX.Bootstrap
open Lib List

variable {ν α : Type}

/-! ## The program -/

/-- `bootstrapNetSend` to the next rank of the ring. -/
def ringNetSend (next : Nat) (data : Buffer) (size : Int) : Coll Packet ν PUnit :=
  .send next .ring (.size size) (sendBytes next data 0 size)

/-- `bootstrapNetRecv` from the previous rank of the ring. -/
def ringNetRecv (prev : Nat) (data : Buffer) (size : Int) : Coll Packet ν Buffer := .recv prev .ring fun
    | .size recvSize => if recvSize > size then .stop .internalError else recvBytes prev data 0 (min recvSize size)
    | _ => .stop .internalError

/-- The arrays `offset` and `length`: chunk `i` has `length i` bytes and begins at `offset i` in the buffers. -/
structure Chunks where
  offset : Nat → Nat
  length : Nat → Nat

/-- `data_for_send` and `data_for_recv`. -/
structure RingData where
  dataForSend : Buffer
  dataForRecv : Buffer

def sendChunkNo (rank nranks iter : Nat) : Nat := (rank + 2 * nranks - iter - 1) % nranks

def recvChunkNo (rank nranks iter : Nat) : Nat := (rank + 2 * nranks - iter - 2) % nranks

/-- The chunk to be sent is copied from the send buffer in the first iteration; later it is the one received in the
iteration before. -/
def fillSend (mem : Buffer) (addr size iter : Nat) (d : RingData) : RingData :=
  if size = 0 then d
  else if iter = 0 then { d with dataForSend := d.dataForSend.write 0 (mem.read addr size) }
  else ⟨d.dataForRecv, d.dataForSend⟩

/-- What a rank sends and receives in an iteration: `data_for_recv` afterwards. -/
def transfer (next : Nat) (dataForSend : Buffer) (sendSize : Nat) (prev : Nat) (dataForRecv : Buffer) (recvSize : Nat) :
    Coll Packet ν Buffer :=
  if sendSize ≠ 0 ∧ recvSize ≠ 0 then bootstrapNetSendRecv next dataForSend 0 (toInt sendSize) prev dataForRecv 0 (toInt recvSize)
  else if sendSize ≠ 0 then do
    ringNetSend next dataForSend (toInt sendSize)
    .done dataForRecv
  else if recvSize ≠ 0 then ringNetRecv prev dataForRecv (toInt recvSize)
  else .done dataForRecv

/-- The chunk received is reduced with the rank's own. -/
def reduceRecv (float : FloatOps) (datatype : DataType) (op : RedOp) (mem : Buffer) (addr size : Nat) (d : RingData) :
    Coll Packet ν RingData :=
  if size = 0 then .done d
  else match reduceElement float datatype (8 * getFlagcxDataTypeSize datatype) op with
    | some f => .done { d with dataForRecv := reduceInto f mem addr (size / getFlagcxDataTypeSize datatype) d.dataForRecv }
    | none => .stop .invalidArgument

def reduceScatterRound (float : FloatOps) (rank nranks sendbuff : Nat) (c : Chunks) (datatype : DataType) (op : RedOp)
    (mem : Buffer) (d : RingData) (iter : Nat) : Coll Packet ν RingData :=
  let sendNo := sendChunkNo rank nranks iter
  let recvNo := recvChunkNo rank nranks iter
  let d := fillSend mem (sendbuff + c.offset sendNo) (c.length sendNo) iter d
  do
    let dataForRecv ← transfer (ringNext nranks rank) d.dataForSend (c.length sendNo) (ringPrev nranks rank) d.dataForRecv
      (c.length recvNo)
    reduceRecv float datatype op mem (sendbuff + c.offset recvNo) (c.length recvNo) { d with dataForRecv := dataForRecv }

/-- `bootstrapRingReduceScatter`: the memory at the end. -/
def bootstrapRingReduceScatter (float : FloatOps) (rank nranks sendbuff recvbuff : Nat) (c : Chunks) (datatype : DataType)
    (op : RedOp) (mem : Buffer) : Coll Packet ν Buffer := do
  let d ← (range (nranks - 1)).foldlM (reduceScatterRound float rank nranks sendbuff c datatype op mem)
    ⟨fun _ => 0, fun _ => 0⟩
  .done (mem.write recvbuff (d.dataForRecv.read 0 (c.length rank)))

/-! ## Numbers of chunks -/

section Numbers
variable {n r k : Nat}

theorem recvChunkNo_eq (hr : r < n) (hk : k + 1 < n) : recvChunkNo r n k = sendChunkNo (ringPrev n r) n k := by
  rw [recvChunkNo, sendChunkNo, ringPrev_eq hr]
  split_ifs with hzero
  · rw [hzero, show n - 1 + 2 * n - k - 1 = 0 + 2 * n - k - 2 + n by omega, Nat.add_mod_right]
  · congr 1
    omega

/-- **What a rank sends is what the next one expects.** -/
theorem sendChunkNo_next (hr : r < n) (hk : k + 1 < n) : sendChunkNo r n k = recvChunkNo (ringNext n r) n k := by
  rw [recvChunkNo_eq (ringNext_lt hr) hk, ringPrev_next hr]

theorem sendChunkNo_succ : sendChunkNo r n (k + 1) = recvChunkNo r n k := by congr 1

theorem recvChunkNo_last (hr : r < n) (hk : k + 2 = n) : recvChunkNo r n k = r := by
  rw [recvChunkNo, show r + 2 * n - k - 2 = r + n by omega, Nat.add_mod_right, Nat.mod_eq_of_lt hr]

theorem sendChunkNo_lt (hr : r < n) : sendChunkNo r n k < n := Nat.mod_lt _ (by omega)

end Numbers

/-! ## Transfers -/

theorem transfer_all {n : Nat} (procs : Nat → Coll Packet ν α) (notes : Nat → List ν) (next : Nat → Buffer → Coll Packet ν α)
    (src dst : Nat → Buffer) (size : Nat → Nat) (hsize : ∀ r < n, size r < 2 ^ 31)
    (hprocs : ∀ r < n, procs r =
      transfer (ringNext n r) (src r) (size r) (ringPrev n r) (dst r) (size (ringPrev n r)) >>= next r) :
    ∃ as, exec Network.step (Network.quiet procs notes) as = some (Network.quiet (fun r => if r < n then
      next r ((dst r).write 0 ((src (ringPrev n r)).read 0 (size (ringPrev n r)))) else procs r) notes) := by
  let prev := ringPrev n
  let payload : Nat → Coll Packet ν α := fun r => if r < n then (do
    sendBytes (ringNext n r) (src r) 0 (size r)
    recvBytes (prev r) (dst r) 0 (size (prev r))) >>= next r else procs r
  let header : Nat → List Packet := fun r => if size r = 0 then [] else [.size (size r)]
  -- the header and the bytes, for a rank that sends or does not, and receives or does not
  have hmid : ∀ r, ∃ mid, r < n → Path (procs r) ((header r).map (.sent (ringNext n r) .ring)) mid ∧
      Path mid ((header (prev r)).map (.got (prev r) .ring)) (payload r) := fun r => by
    by_cases hr : r < n
    · have hint := toInt_of_lt (hsize r hr)
      have hint' : toInt (size (ringPrev n r)) = size (ringPrev n r) := toInt_of_lt (hsize _ (ringPrev_lt hr))
      have hbounds : ¬ ((size (prev r) : Int) < 0 ∨ (size (prev r) : Int) > size (prev r)) := by omega
      simp only [hprocs r hr, payload, if_pos hr, transfer, header, hint, hint']
      have hnone : ∀ buff : Buffer, ∀ offset, sendBytes (ν := ν) (ringNext n r) buff offset (0 : Nat) = .done ⟨⟩ :=
        fun _ _ => if_neg (by omega)
      have hnone' : ∀ buff : Buffer, ∀ offset, recvBytes (ν := ν) (ringPrev n r) buff offset (0 : Nat) = .done buff :=
        fun _ _ => if_neg (by omega)
      by_cases hsend : size r = 0 <;> by_cases hrecv : size (prev r) = 0
      · rw [if_neg (not_and.2 fun h => absurd hsend h), if_neg (not_not.2 hsend), if_neg (not_not.2 hrecv), if_pos hsend,
          if_pos hrecv, hsend, show size (ringPrev n r) = 0 from hrecv, hnone, hnone']
        exact ⟨_, fun _ => ⟨.refl _, .refl _⟩⟩
      · rw [if_neg (not_and.2 fun h => absurd hsend h), if_neg (not_not.2 hsend), if_pos hrecv, if_pos hsend, if_neg hrecv, hsend,
          hnone]
        refine ⟨_, fun _ => ⟨.refl _, .recv ?_⟩⟩
        dsimp only
        rw [if_neg (Int.lt_irrefl _), Int.min_self]
        exact .refl _
      · rw [if_neg (not_and.2 fun _ h => h hrecv), if_pos hsend, if_neg hsend, if_pos hrecv,
          show size (ringPrev n r) = 0 from hrecv, hnone']
        exact ⟨_, fun _ => ⟨.send (.refl _), .refl _⟩⟩
      · rw [if_pos ⟨hsend, hrecv⟩, if_neg hsend, if_neg hrecv]
        refine ⟨_, fun _ => ⟨.send (.refl _), .recv ?_⟩⟩
        dsimp only
        rw [if_neg hbounds, Int.min_self]
        exact .refl _
    · exact ⟨procs r, fun h => absurd h hr⟩
  choose mid hmid using hmid
  obtain ⟨as, hheaders⟩ := ring_exchange (n := n) procs mid payload notes header (fun r hr => (hmid r hr).1)
    (fun r hr => (hmid r hr).2) fun r hr => if_neg (by omega)
  obtain ⟨bs, hbytes⟩ := payload_all payload notes next src dst (fun _ => 0) (fun _ => 0) size fun r hr => if_pos hr
  refine ⟨as ++ bs, ?_⟩
  rw [exec_append, hheaders]
  refine hbytes.trans (congrArg (fun procs => some (Network.quiet procs notes)) (funext fun r => ?_))
  split_ifs with hr
  · rfl
  · exact if_neg hr

/-! ## Iterations -/

/-- The arguments of a reduction on the ring that are the same on all ranks. -/
structure Reduction where
  nranks : Nat
  chunks : Chunks
  datatype : DataType
  op : RedOp

namespace Reduction
variable (a : Reduction) (mem : Nat → Buffer) (sendbuff : Nat → Nat)

abbrev typeSize : Nat := getFlagcxDataTypeSize a.datatype

def elements (place r : Nat) : BitVec (8 * a.typeSize) := load a.typeSize (mem r) (sendbuff r + place)

variable (f : BitVec (8 * a.typeSize) → BitVec (8 * a.typeSize) → BitVec (8 * a.typeSize))

/-- What a rank has when it sends in iteration `k`. -/
def filled (k r : Nat) (d : RingData) : RingData :=
  fillSend (mem r) (sendbuff r + a.chunks.offset (sendChunkNo r a.nranks k)) (a.chunks.length (sendChunkNo r a.nranks k)) k d

/-- What a rank has after `k` iterations. -/
def after : Nat → Nat → RingData
  | 0, _ => ⟨fun _ => 0, fun _ => 0⟩
  | k + 1, r =>
    let p := ringPrev a.nranks r
    let no := recvChunkNo r a.nranks k
    let d := a.filled mem sendbuff k r (after k r)
    let received := d.dataForRecv.write 0 ((a.filled mem sendbuff k p (after k p)).dataForSend.read 0 (a.chunks.length no))
    ⟨d.dataForSend, reduceInto f (mem r) (sendbuff r + a.chunks.offset no) (a.chunks.length no / a.typeSize) received⟩

variable {a mem sendbuff f}

section

variable {float : FloatOps} (hf : reduceElement float a.datatype (8 * a.typeSize) a.op = some f)
include hf

theorem reduceRecv_eq (own : Buffer) (addr size : Nat) (d : RingData) :
    reduceRecv (ν := ν) float a.datatype a.op own addr size d =
      .done { d with dataForRecv := reduceInto f own addr (size / a.typeSize) d.dataForRecv } := by
  rw [reduceRecv]
  split_ifs with hsize
  · rw [hsize, Nat.zero_div]
    rfl
  · rw [hf]

/-- **All iterations**, after which the ranks do something else. -/
theorem run (hlength : ∀ i < a.nranks, a.chunks.length i < 2 ^ 31) (recvbuff : Nat → Nat) (procs : Nat → Coll Packet ν α)
    (notes : Nat → List ν) (next : Nat → Buffer → Coll Packet ν α)
    (hprocs : ∀ r < a.nranks, procs r = bootstrapRingReduceScatter float r a.nranks (sendbuff r) (recvbuff r) a.chunks a.datatype a.op (mem r) >>= next r) :
    ∃ as, exec Network.step (Network.quiet procs notes) as = some (Network.quiet (fun r => if r < a.nranks then next r
      ((mem r).write (recvbuff r) ((a.after mem sendbuff f (a.nranks - 1) r).dataForRecv.read 0 (a.chunks.length r)))
        else procs r) notes) := by
  let round : Nat → RingData → Nat → Coll Packet ν RingData := fun r =>
    reduceScatterRound float r a.nranks (sendbuff r) a.chunks a.datatype a.op (mem r)
  refine Network.loop (· < a.nranks) round (a.after mem sendbuff f) (fun k hk next => ?_) (fun r d =>
    next r ((mem r).write (recvbuff r) (d.dataForRecv.read 0 (a.chunks.length r)))) fun r hr => ?_
  · obtain ⟨as, hexec⟩ := transfer_all (n := a.nranks) (fun r =>
        if r < a.nranks then round r (a.after mem sendbuff f k r) k >>= next r else procs r) notes
      (fun r received => next r { a.filled mem sendbuff k r (a.after mem sendbuff f k r) with
        dataForRecv := reduceInto f (mem r) (sendbuff r + a.chunks.offset (recvChunkNo r a.nranks k))
          (a.chunks.length (recvChunkNo r a.nranks k) / a.typeSize) received })
      (fun r => (a.filled mem sendbuff k r (a.after mem sendbuff f k r)).dataForSend)
      (fun r => (a.filled mem sendbuff k r (a.after mem sendbuff f k r)).dataForRecv)
      (fun r => a.chunks.length (sendChunkNo r a.nranks k)) (fun r hr => hlength _ (sendChunkNo_lt hr)) fun r hr => by
        simp only [if_pos hr, round]
        rw [reduceScatterRound, ← recvChunkNo_eq hr (by omega)]
        simp only [reduceRecv_eq hf, bind_assoc]
        rfl
    refine ⟨as, hexec.trans (congrArg (fun procs => some (Network.quiet procs notes)) (funext fun r => ?_))⟩
    split_ifs with hr
    · rw [after, recvChunkNo_eq hr (by omega)]
    · rfl
  · rw [hprocs r hr, bootstrapRingReduceScatter, bind_assoc]
    rfl

end

/-! ## Results -/

/-- The result of a rank and of those before it. -/
def accumulate {w : Nat} (n : Nat) (f : BitVec w → BitVec w → BitVec w) (x : Nat → BitVec w) : Nat → Nat → BitVec w
  | 0, r => x r
  | k + 1, r => f (x r) (accumulate n f x k (ringPrev n r))

theorem accumulate_eq {w n : Nat} {f : BitVec w → BitVec w → BitVec w} {x : Nat → BitVec w} {k r : Nat} (hr : r < n)
    (hk : k < n) : accumulate n f x k r = reduceOver f x (slice n r k) ((range k).reverse.map (slice n r)) := by
  induction k generalizing r with
  | zero =>
    rw [slice_zero hr]
    rfl
  | succ k ih =>
    have hmap : (range k).reverse.map (slice n (ringPrev n r)) = ((range k).map Nat.succ).reverse.map (slice n r) := by
      rw [← map_reverse, map_map]
      exact map_congr_left fun j hj => slice_prev hr (by
        have := mem_range.1 (mem_reverse.1 hj)
        omega)
    rw [accumulate, ih (ringPrev_lt hr) (by omega), slice_prev hr hk, hmap, range_succ_eq_map, reverse_cons,
      map_append, map_singleton, slice_zero hr, reduceOver, reduceOver, foldl_append]
    rfl

theorem slice_perm {n r : Nat} (hr : r < n) : ((range n).map (slice n r)).Perm (range n) := by
  have hnodup : ((range n).map (slice n r)).Nodup := by
    refine (nodup_map_iff_inj_on nodup_range).2 fun i hi j hj heq => ?_
    rcases lt_trichotomy i j with hlt | rfl | hgt
    · exact absurd heq (slice_ne hr (mem_range.1 hj) hlt)
    · rfl
    · exact absurd heq.symm (slice_ne hr (mem_range.1 hi) hgt)
  refine (subperm_of_subset hnodup fun i hi => ?_).perm_of_length_le (by simp)
  obtain ⟨j, -, rfl⟩ := mem_map.1 hi
  exact mem_range.2 (slice_lt hr)

theorem accumulate_reduces {w n : Nat} {f : BitVec w → BitVec w → BitVec w} {x : Nat → BitVec w} {r : Nat} (hr : r < n) :
    Reduces f x n (accumulate n f x (n - 1) r) := by
  refine ⟨slice n r (n - 1), (range (n - 1)).reverse.map (slice n r), ?_, accumulate_eq hr (by omega)⟩
  have hall : slice n r (n - 1) :: (range (n - 1)).reverse.map (slice n r) = ((range n).map (slice n r)).reverse := by
    rw [show range n = range (n - 1) ++ [n - 1] by
        rw [← range_succ, Nat.succ_eq_add_one, Nat.sub_add_cancel (by omega)],
      map_append, reverse_append, map_reverse]
    rfl
  rw [hall]
  exact (reverse_perm _).trans (slice_perm hr)

theorem element_le {size typeSize j : Nat} (hj : j < size / typeSize) : j * typeSize + typeSize ≤ size := by
  rw [← Nat.succ_mul]
  exact (Nat.mul_le_mul_right typeSize hj).trans (Nat.div_mul_le_self size typeSize)

theorem load_received (a : Reduction) (mem : Nat → Buffer) (sendbuff : Nat → Nat)
    (f : BitVec (8 * a.typeSize) → BitVec (8 * a.typeSize) → BitVec (8 * a.typeSize)) {k r j : Nat}
    (hj : j < a.chunks.length (recvChunkNo r a.nranks k) / a.typeSize) :
    load a.typeSize (a.after mem sendbuff f (k + 1) r).dataForRecv (j * a.typeSize) =
      f (a.elements mem sendbuff (a.chunks.offset (recvChunkNo r a.nranks k) + j * a.typeSize) r)
        (load a.typeSize (a.filled mem sendbuff k (ringPrev a.nranks r) (a.after mem sendbuff f k (ringPrev a.nranks r))).dataForSend
          (j * a.typeSize)) := by
  let received := (a.filled mem sendbuff k (ringPrev a.nranks r) (a.after mem sendbuff f k (ringPrev a.nranks r))).dataForSend
  have hcopy : ∀ b : Buffer, load a.typeSize (b.write 0 (received.read 0 (a.chunks.length (recvChunkNo r a.nranks k))))
      (0 + j * a.typeSize) = load a.typeSize received (0 + j * a.typeSize) := fun b =>
    load_of_read Buffer.read_write_read (element_le hj)
  simp only [Nat.zero_add] at hcopy
  rw [after]
  rw [load_reduceInto, if_pos hj, elements, Nat.add_assoc, hcopy]

theorem holds (a : Reduction) (mem : Nat → Buffer) (sendbuff : Nat → Nat)
    (f : BitVec (8 * a.typeSize) → BitVec (8 * a.typeSize) → BitVec (8 * a.typeSize)) {k r j : Nat} (hk : k + 1 < a.nranks)
    (hr : r < a.nranks) (hj : j < a.chunks.length (recvChunkNo r a.nranks k) / a.typeSize) :
    load a.typeSize (a.after mem sendbuff f (k + 1) r).dataForRecv (j * a.typeSize) =
      accumulate a.nranks f (a.elements mem sendbuff (a.chunks.offset (recvChunkNo r a.nranks k) + j * a.typeSize)) (k + 1) r := by
  have hno := recvChunkNo_eq hr hk
  -- the chunk is not empty, so that the rank before has copied or received it
  have hsize : a.chunks.length (recvChunkNo r a.nranks k) ≠ 0 := fun hzero => by
    rw [hzero, Nat.zero_div] at hj
    exact Nat.not_lt_zero j hj
  induction k generalizing r j with
  | zero =>
    have hcopy : ∀ b own : Buffer, ∀ addr, load a.typeSize (b.write 0 (own.read addr (a.chunks.length (recvChunkNo r a.nranks 0))))
        (0 + j * a.typeSize) = load a.typeSize own (addr + j * a.typeSize) := fun b own addr =>
      load_of_read Buffer.read_write_read (element_le hj)
    simp only [Nat.zero_add] at hcopy
    rw [load_received a mem sendbuff f hj, accumulate, filled, ← hno, fillSend, if_neg hsize, if_pos rfl]
    rw [hcopy, Nat.add_assoc]
    rfl
  | succ k ih =>
    have hprev : recvChunkNo (ringPrev a.nranks r) a.nranks k = recvChunkNo r a.nranks (k + 1) := by rw [hno, sendChunkNo_succ]
    rw [load_received a mem sendbuff f hj, accumulate, filled, ← hno, fillSend, if_neg hsize, if_neg (Nat.succ_ne_zero k)]
    rw [← hprev] at hj hsize ⊢
    rw [ih (by omega) (ringPrev_lt hr) hj (recvChunkNo_eq (ringPrev_lt hr) (by omega)) hsize]

/-- **In the end a rank has its own chunk, reduced over all ranks.** -/
theorem reduces (a : Reduction) (mem : Nat → Buffer) (sendbuff : Nat → Nat)
    (f : BitVec (8 * a.typeSize) → BitVec (8 * a.typeSize) → BitVec (8 * a.typeSize)) (hranks : 2 ≤ a.nranks) {r j : Nat}
    (hr : r < a.nranks) (hj : j < a.chunks.length r / a.typeSize) :
    Reduces f (a.elements mem sendbuff (a.chunks.offset r + j * a.typeSize)) a.nranks
      (load a.typeSize (a.after mem sendbuff f (a.nranks - 1) r).dataForRecv (j * a.typeSize)) := by
  have hlast : recvChunkNo r a.nranks (a.nranks - 2) = r := recvChunkNo_last hr (by omega)
  have hholds := a.holds mem sendbuff f (k := a.nranks - 2) (j := j) (by omega) hr (by rwa [hlast])
  rw [hlast, show a.nranks - 2 + 1 = a.nranks - 1 by omega] at hholds
  rw [hholds]
  exact accumulate_reduces hr

end Reduction

end FlagCX.Bootstrap
