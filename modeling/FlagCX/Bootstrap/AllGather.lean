import FlagCX.Bootstrap.Slices

/-!
# AllGather of the bootstrap (`AllGatherBootstrap`)

* `AllGather.slices` : the blocks go round the ring.
* `AllGather.right_iff` : the receive buffers are right exactly when an `int` holds the size of a block.

A rank has one memory, with its send and its receive buffer at any addresses. The block is copied before the ring begins, so
that they may overlap.
-/

namespace FlagCX.Bootstrap
open Lib

variable {ν : Type}

/-! ## The program -/

/-- One round of `bootstrapRingAllGather`, for `size` bytes a slice. -/
def ringAllGatherRound (rank nranks data : Nat) (size : Int) (mem : Buffer) (i : Nat) : Coll Packet ν Buffer :=
  let rslice := (rank + nranks - i - 1) % nranks
  let sslice := (rank + nranks - i) % nranks
  bootstrapNetSendRecv (ringNext nranks rank) mem (data + sslice * size.toNat) size (ringPrev nranks rank) mem
    (data + rslice * size.toNat) size

/-- `bootstrapRingAllGather`, with the slices from `data` on. A size that is negative ends it in the first round. -/
def bootstrapRingAllGather (rank nranks data : Nat) (size : Int) (mem : Buffer) : Coll Packet ν Buffer :=
  (List.range (nranks - 1)).foldlM (ringAllGatherRound rank nranks data size) mem

/-- `AllGatherBootstrap`: the memory at the end. `bootstrapCollAllGather` takes the size of a block as an `int`. -/
def AllGatherBootstrap (rank nranks sendbuff recvbuff sendcount : Nat) (datatype : DataType) (mem : Buffer) :
    Coll Packet ν Buffer :=
  let size := sendcount * getFlagcxDataTypeSize datatype
  bootstrapRingAllGather rank nranks recvbuff (toInt size) (mem.write (recvbuff + rank * size) (mem.read sendbuff size))

/-- The arguments of `AllGatherBootstrap` that are the same on all ranks. -/
structure AllGather where
  nranks : Nat
  sendcount : Nat
  datatype : DataType

namespace AllGather
variable (a : AllGather) (mem : Nat → Buffer) (sendbuff recvbuff : Nat → Nat)

def size : Nat := a.sendcount * getFlagcxDataTypeSize a.datatype

/-- All ranks call `AllGatherBootstrap`. -/
def network : Network Nat Port Packet Empty Result Buffer := .start fun r =>
  if r < a.nranks then AllGatherBootstrap r a.nranks (sendbuff r) (recvbuff r) a.sendcount a.datatype (mem r) else .done (mem r)

/-- Every run ends, and then all ranks have the send buffers of all ranks, wherever the buffers are and whatever they hold. -/
def Right : Prop := ∀ mem sendbuff recvbuff, (a.network mem sendbuff recvbuff).Settles fun n' => ∀ r < a.nranks,
  ∃ m, n'.procs r = .done m ∧ ∀ i < a.nranks, m.read (recvbuff r + i * a.size) a.size = (mem i).read (sendbuff i) a.size

/-! ## The blocks -/

/-- The blocks in the receive buffers. -/
def slices : Slices := ⟨a.nranks, fun r i => recvbuff r + i * a.size, fun _ => a.size⟩

def copied (r : Nat) : Buffer := (mem r).write (recvbuff r + r * a.size) ((mem r).read (sendbuff r) a.size)

variable {a mem sendbuff recvbuff}

theorem right_of (h : a.nranks ≤ 1 ∨ a.size < 2 ^ 31) : a.Right := by
  intro mem sendbuff recvbuff
  let s := a.slices recvbuff
  obtain ⟨as, hexec⟩ := s.run (a.copied mem sendbuff recvbuff) (a.network mem sendbuff recvbuff).procs (fun _ => [])
    (fun _ m => .done m) fun r hr => by
      have hround : ∀ m, ∀ k ∈ List.range (a.nranks - 1),
          ringAllGatherRound (ν := Empty) r a.nranks (recvbuff r) (toInt a.size) m k = s.round r m k := fun m k hk => by
        have hint : toInt a.size = a.size := h.elim (fun hone => by
          rw [Nat.sub_eq_zero_of_le hone] at hk
          cases hk) fun hsize => toInt_of_lt hsize
        rw [ringAllGatherRound, hint]
        rfl
      rw [Proc.bind_done]
      refine (if_pos hr).trans ?_
      exact foldlM_congr hround _
  refine .of_run hexec (fun r => ?_) fun r hr => ⟨_, if_pos hr, fun i hi => ?_⟩
  · by_cases hr : r < a.nranks
    · exact Network.step_done (if_pos hr)
    · exact Network.step_done ((if_neg hr).trans (if_neg hr))
  · have hapart : s.Apart := fun _ _ _ _ _ _ hij => Buffer.apart_blocks hij _ _
    refine (Slices.all hapart hr hi).trans ?_
    exact Buffer.read_write_read

theorem behind_slices {rank nranks sendbuff recvbuff sendcount k : Nat} {datatype : DataType} {mem m : Buffer}
    {h : List (Event Nat Port Packet ν)} (hranks : 0 < nranks)
    (hp : Path (AllGatherBootstrap rank nranks sendbuff recvbuff sendcount datatype mem) h (.done m))
    (hk : recvbuff + nranks * (toInt (sendcount * getFlagcxDataTypeSize datatype)).toNat ≤ k) :
    m k = mem.write (recvbuff + rank * (sendcount * getFlagcxDataTypeSize datatype))
      (mem.read sendbuff (sendcount * getFlagcxDataTypeSize datatype)) k := by
  have hkeeps := hp.foldlM_done (Q := fun m => m k = mem.write (recvbuff + rank * (sendcount * getFlagcxDataTypeSize datatype))
    (mem.read sendbuff (sendcount * getFlagcxDataTypeSize datatype)) k)
  refine hkeeps (fun s i _ h s' hround hs => ?_) rfl
  rw [← hs]
  refine sendRecv_done hround (le_trans ?_ hk)
  have hslice : (rank + nranks - i - 1) % nranks < nranks := Nat.mod_lt _ hranks
  have hle := Nat.mul_le_mul_right (toInt (sendcount * getFlagcxDataTypeSize datatype)).toNat hslice
  rw [Nat.succ_mul] at hle
  omega

/-- AllGather is right exactly when an `int` holds the size of a block, or a rank is alone. -/
theorem right_iff : a.Right ↔ a.nranks ≤ 1 ∨ a.size < 2 ^ 31 := by
  refine ⟨fun h => ?_, right_of⟩
  by_contra hlarge
  obtain ⟨hranks, hsize⟩ := not_or.1 hlarge
  -- the last rank has ones and the others have zeros; the buffers are at address 0
  let ones : Nat → Buffer := fun i _ => if i = a.nranks - 1 then 1 else 0
  obtain ⟨as, n', hexec, -, hQ⟩ := (h ones (fun _ => 0) fun _ => 0).exists_run
  obtain ⟨m, hm, hblocks⟩ := hQ 0 (by omega)
  obtain ⟨hs, hh, -⟩ := Network.histories hexec
  have hpath := hh.path 0
  rw [hm, show (a.network ones (fun _ => 0) fun _ => 0).procs 0 = _ from if_pos (by omega)] at hpath
  have hshort : (toInt a.size).toNat + 1 ≤ a.size := toInt_toNat_lt (not_lt.1 hsize)
  have hslices := Nat.mul_le_mul_left a.nranks hshort
  rw [Nat.mul_succ] at hslices
  have hlast : (a.nranks - 1) * a.size + a.size = a.nranks * a.size := by
    rw [← Nat.succ_mul, Nat.succ_eq_add_one, Nat.sub_add_cancel (by omega)]
  have hone : m (0 + (a.nranks - 1) * a.size + (a.size - 1)) = 1 :=
    (Buffer.read_eq.1 (hblocks (a.nranks - 1) (by omega)) (a.size - 1) (by omega)).trans (if_pos rfl)
  have hbehind : 0 + a.nranks * (toInt a.size).toNat ≤ 0 + (a.nranks - 1) * a.size + (a.size - 1) := by omega
  have hzero : ∀ k, (ones 0).write (0 + 0 * a.size) ((ones 0).read 0 a.size) k = 0 := fun k => by
    rw [Nat.zero_mul, Buffer.write_read]
    exact if_neg (by omega)
  have hkept := behind_slices (by omega) hpath hbehind
  rw [hone] at hkept
  exact absurd (hkept.trans (hzero _)) (by decide)

end AllGather

end FlagCX.Bootstrap
