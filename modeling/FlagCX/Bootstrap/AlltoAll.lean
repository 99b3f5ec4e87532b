import FlagCX.Bootstrap.Messages
import FlagCX.Bootstrap.Sockets
import FlagCX.Lib.Exchange

/-!
# All-to-all of the bootstrap (`AlltoAllBootstrap`, `AlltoAllvBootstrap`)

* `Blocks` : what both of them exchange: a block for each pair of ranks, and the place it goes to.
* `alltoall_right` : they are right exactly when an `int` holds the sizes.

The sizes in bytes are those of blocks of a buffer, and a `size_t` holds them. `bootstrapSend` and `bootstrapRecv` take them as
an `int`.
-/

namespace FlagCX.Bootstrap
open Lib List

variable {ν : Type}

/-! ## The programs -/

def tagAlltoAll : Int := -9995

def tagAlltoAllv : Int := -9998

/-- `AlltoAllBootstrap`: the receive buffer at the end. In place, `sendbuff` is `recvbuff`, and a copy of it is sent. -/
def AlltoAllBootstrap (rank nranks : Nat) (inPlace : Bool) (sendbuff recvbuff : Buffer) (count : Nat) (datatype : DataType) :
    Coll Packet ν Buffer :=
  let size := count * getFlagcxDataTypeSize datatype
  let sendbuff := if inPlace then Buffer.write (fun _ => 0) 0 (recvbuff.read 0 (nranks * size)) else sendbuff
  (range nranks).foldlM (fun recvbuff i =>
    if i = rank then .done (recvbuff.write (rank * size) (sendbuff.read (rank * size) size))
    else if i < rank then do
      bootstrapSend i tagAlltoAll sendbuff (i * size) (toInt size)
      bootstrapRecv i tagAlltoAll recvbuff (i * size) (toInt size)
    else do
      let recvbuff ← bootstrapRecv i tagAlltoAll recvbuff (i * size) (toInt size)
      bootstrapSend i tagAlltoAll sendbuff (i * size) (toInt size)
      .done recvbuff) recvbuff

/-- `AlltoAllvBootstrap`: the receive buffer at the end. -/
def AlltoAllvBootstrap (rank nranks : Nat) (sendbuff : Buffer) (sendcounts sdispls : Nat → Nat) (recvbuff : Buffer)
    (recvcounts rdispls : Nat → Nat) (datatype : DataType) : Coll Packet ν Buffer :=
  let typeSize := getFlagcxDataTypeSize datatype
  (range nranks).foldlM (fun recvbuff i =>
    if i = rank then .done (recvbuff.write (rdispls i * typeSize) (sendbuff.read (sdispls i * typeSize) (sendcounts i * typeSize)))
    else if i < rank then do
      bootstrapSend i tagAlltoAllv sendbuff (sdispls i * typeSize) (toInt (sendcounts i * typeSize))
      bootstrapRecv i tagAlltoAllv recvbuff (rdispls i * typeSize) (toInt (recvcounts i * typeSize))
    else do
      let recvbuff ← bootstrapRecv i tagAlltoAllv recvbuff (rdispls i * typeSize) (toInt (recvcounts i * typeSize))
      bootstrapSend i tagAlltoAllv sendbuff (sdispls i * typeSize) (toInt (sendcounts i * typeSize))
      .done recvbuff) recvbuff

/-! ## Blocks -/

/-- The blocks that the ranks exchange, in bytes: the one from `r` to `i` has `size r i` bytes, is at `sendAt r i` in the buffer
of `r` and goes to `recvAt i r` in that of `i`. -/
structure Blocks where
  n : Nat
  tag : Int
  size : Nat → Nat → Nat
  sendAt : Nat → Nat → Nat
  recvAt : Nat → Nat → Nat

namespace Blocks
variable (b : Blocks) (src dst : Nat → Buffer)

/-- The exchange of the blocks of `src`. -/
def exchange : Exchange Port Packet ν Result Buffer where
  n := b.n
  port := .tag b.tag
  init := dst
  msg r i := .message (toInt (b.size r i)) ((src r).read (b.sendAt r i) (toInt (b.size r i)).toNat)
  own r s := s.write (b.recvAt r r) ((src r).read (b.sendAt r r) (b.size r r))
  get r i m s := bootstrapNetRecv s (b.recvAt r i) (toInt (b.size i r)) m
  put r i s := s.write (b.recvAt r i) ((src i).read (b.sendAt i r) (toInt (b.size i r)).toNat)
  get_msg _ i s := bootstrapNetRecv_message s (src i) _ _ _

/-- Block `i` of a rank is what rank `i` had for it. -/
def Delivered (r : Nat) (buff : Buffer) : Prop :=
  r < b.n → ∀ i < b.n, buff.read (b.recvAt r i) (b.size i r) = (src i).read (b.sendAt i r) (b.size i r)

/-- An `int` holds the sizes, and the blocks that a rank receives lie apart. -/
structure Fits : Prop where
  sizes : ∀ r i, r < b.n → i < b.n → r ≠ i → b.size r i < 2 ^ 31
  apart : ∀ r i j, r < b.n → i < b.n → j < b.n → i ≠ j → Buffer.Apart (b.recvAt r i) (b.size i r) (b.recvAt r j) (b.size j r)

/-- The bytes of block `i` that a rank gets. -/
def moved (r i : Nat) : Nat := if i = r then b.size r r else (toInt (b.size i r)).toNat

variable {b src dst} {r : Nat}

theorem acc_eq : (b.exchange (ν := ν) src dst).acc r b.n =
    (dst r).writeAll (b.recvAt r) (fun i => (src i).read (b.sendAt i r) (b.moved r i)) b.n := by
  rw [Exchange.acc, Buffer.writeAll]
  refine foldl_ext _ _ _ fun s i _ => ?_
  by_cases hi : i = r
  · rw [if_pos hi, moved, if_pos hi, hi]
    rfl
  · rw [if_neg hi, moved, if_neg hi]
    rfl

/-- **All ranks come to their ends**, whatever the sizes. -/
theorem completes (b : Blocks) (src dst : Nat → Buffer) : (b.exchange (ν := ν) src dst).start.Completes fun r buff => r < b.n →
    buff = (dst r).writeAll (b.recvAt r) (fun i => (src i).read (b.sendAt i r) (b.moved r i)) b.n := by
  obtain ⟨hbounded, hfree, hright⟩ := (b.exchange (ν := ν) src dst).completes
  refine ⟨hbounded, hfree, fun as n' hexec r buff hdone hr => ?_⟩
  exact (hright as n' hexec r buff hdone).trans ((if_pos hr).trans acc_eq)

theorem Fits.right (h : b.Fits) : (b.exchange (ν := ν) src dst).start.Completes (b.Delivered src) := by
  obtain ⟨hbounded, hfree, hright⟩ := completes (ν := ν) b src dst
  refine ⟨hbounded, hfree, fun as n' hexec r buff hdone hr i hi => ?_⟩
  have hmoved : ∀ j < b.n, b.moved r j = b.size j r := fun j hj => by
    rw [moved]
    split_ifs with hjr
    · rw [hjr]
    · rw [toInt_of_lt (h.sizes j r hj hr hjr), Int.toNat_natCast]
  have hlength : ∀ j < b.n, ((src j).read (b.sendAt j r) (b.moved r j)).length = b.size j r := fun j hj => by
    rw [Buffer.length_read, hmoved j hj]
  have hread : ((dst r).writeAll (b.recvAt r) (fun i => (src i).read (b.sendAt i r) (b.moved r i)) b.n).read (b.recvAt r i)
      ((src i).read (b.sendAt i r) (b.moved r i)).length = (src i).read (b.sendAt i r) (b.moved r i) :=
    Buffer.read_writeAll hi fun j hj hji => by
      rw [hlength i hi, hlength j hj]
      exact h.apart r i j hr hi hj (Ne.symm hji)
  rw [hlength i hi, hmoved i hi] at hread
  rw [hright as n' hexec r buff hdone hr, hread]

theorem moved_le (i : Nat) : b.moved r i ≤ b.size i r := by
  rw [moved]
  split_ifs with hi
  · rw [hi]
  · exact toInt_toNat_le _

theorem not_delivered {i : Nat} (hr : r < b.n) (hi : i < b.n) (hir : i ≠ r) (hsize : 2 ^ 31 ≤ b.size i r)
    (hone : ∀ k < b.size i r, src i (b.sendAt i r + k) = 1)
    (hzero : ∀ j < b.n, j ≠ i → ∀ k < b.size j r, src j (b.sendAt j r + k) = 0) (hdst : ∀ k, dst r k = 0)
    (h : (b.exchange (ν := ν) src dst).start.Completes (b.Delivered src)) : False := by
  obtain ⟨as, n', hexec, hdone⟩ := h.exists_run
  obtain ⟨buff, hbuff⟩ := hdone r
  have hgoal := h.right as n' hexec r buff hbuff hr i hi
  rw [(completes b src dst).right as n' hexec r buff hbuff hr, Buffer.read_eq] at hgoal
  -- the last byte of the block is not written
  have hlast := hgoal (b.size i r - 1) (by omega)
  rw [hone _ (by omega)] at hlast
  refine absurd hlast (Buffer.writeAll_cell (Q := fun v => v ≠ 1) ?_ ?_)
  · rw [hdst]
    decide
  · intro j hj k v hv hk
    by_cases hji : j = i
    · subst hji
      have hshort := toInt_toNat_lt hsize
      have hlt := (List.getElem?_eq_some_iff.1 hv).1
      rw [Buffer.length_read, moved, if_neg hir] at hlt
      omega
    · have hlt := (List.getElem?_eq_some_iff.1 hv).1
      rw [Buffer.length_read] at hlt
      rw [Buffer.getElem?_read hlt, hzero j hj hji k (hlt.trans_le (moved_le j))] at hv
      cases hv
      decide

end Blocks

/-! ## All-to-all -/

/-- The arguments of `AlltoAllBootstrap` that are the same on all ranks, and who calls it in place. -/
structure AlltoAll where
  nranks : Nat
  count : Nat
  datatype : DataType
  inPlace : Nat → Bool

namespace AlltoAll
variable (a : AlltoAll) (sendbuff recvbuff : Nat → Buffer)

def size : Nat := a.count * getFlagcxDataTypeSize a.datatype

/-- All ranks call `AlltoAllBootstrap`. -/
def procs (r : Nat) : Coll Packet Empty Buffer :=
  if r < a.nranks then AlltoAllBootstrap r a.nranks (a.inPlace r) (sendbuff r) (recvbuff r) a.count a.datatype
  else .done (recvbuff r)

/-- The channels between the ranks. -/
def network : Network Nat Port Packet Empty Result Buffer := .start (a.procs sendbuff recvbuff)

def input (i : Nat) : Buffer := if a.inPlace i then recvbuff i else sendbuff i

/-- Every run comes to its end, and then block `i` of rank `r` is block `r` of rank `i`, whatever the buffers hold. -/
def Right : Prop := ∀ sendbuff recvbuff, (a.network sendbuff recvbuff).Completes fun r buff => r < a.nranks →
  ∀ i < a.nranks, buff.read (i * a.size) a.size = (a.input sendbuff recvbuff i).read (r * a.size) a.size

def blocks : Blocks where
  n := a.nranks
  tag := tagAlltoAll
  size _ _ := a.size
  sendAt _ i := i * a.size
  recvAt _ i := i * a.size

def sent (i : Nat) : Buffer :=
  if a.inPlace i then Buffer.write (fun _ => 0) 0 ((recvbuff i).read 0 (a.nranks * a.size)) else sendbuff i

theorem network_eq : a.network sendbuff recvbuff = (a.blocks.exchange (a.sent sendbuff recvbuff) recvbuff).start := rfl

theorem sent_eq {i k : Nat} (hk : k < a.nranks * a.size) : a.sent sendbuff recvbuff i k = a.input sendbuff recvbuff i k := by
  rw [sent, input]
  split_ifs
  · have hlength : k < ((recvbuff i).read 0 (a.nranks * a.size)).length := by rwa [Buffer.length_read]
    have hwrite : some (Buffer.write (fun _ => 0) 0 ((recvbuff i).read 0 (a.nranks * a.size)) (0 + k)) = _ :=
      Buffer.write_mem hlength
    rw [Buffer.getElem?_read hk, zero_add] at hwrite
    exact Option.some.inj hwrite
  · rfl

theorem sent_read {r i : Nat} (hr : r < a.nranks) :
    (a.sent sendbuff recvbuff i).read (r * a.size) a.size = (a.input sendbuff recvbuff i).read (r * a.size) a.size := by
  refine Buffer.read_eq.2 fun k hk => a.sent_eq sendbuff recvbuff ?_
  have hle := Nat.mul_le_mul_right a.size hr
  rw [Nat.succ_mul] at hle
  omega

variable {a}

theorem fits (h : a.nranks ≤ 1 ∨ a.size < 2 ^ 31) : a.blocks.Fits where
  sizes r i hr hi hri := by
    rcases h with h | h
    · exact absurd hri (by simp only [blocks] at hr hi; omega)
    · exact h
  apart r i j _ _ _ hij := by
    have hapart := Buffer.apart_blocks hij 0 a.size
    rwa [zero_add, zero_add] at hapart

/-- All-to-all is right exactly when an `int` holds the size of a block, or a rank is alone. -/
theorem right_iff : a.Right ↔ a.nranks ≤ 1 ∨ a.size < 2 ^ 31 := by
  constructor
  · intro h
    by_contra hlarge
    obtain ⟨hranks, hsize⟩ := not_or.1 hlarge
    let ones : Nat → Buffer := fun i _ => if i = 1 then 1 else 0
    have hinput : ∀ i k, a.input ones ones i k = ones i k := fun i k => by
      rw [input]
      split_ifs <;> rfl
    have hcompletes := h ones ones
    have hblock : ∀ i, ∀ k < a.size, a.sent ones ones i (0 * a.size + k) = ones i 0 := fun i k hk => by
      have hle := Nat.mul_le_mul_right a.size (le_of_lt (not_le.1 hranks))
      rw [a.sent_eq ones ones (by omega), hinput]
    have hdelivered := hcompletes.mono fun r buff hbuff hr i hi => (hbuff hr i hi).trans (a.sent_read ones ones hr).symm
    exact Blocks.not_delivered (b := a.blocks) (Nat.lt_of_succ_lt (not_le.1 hranks)) (not_le.1 hranks) Nat.one_ne_zero
      (not_lt.1 hsize) (fun k hk => hblock 1 k hk)
      (fun j _ hj k hk => (hblock j k hk).trans (if_neg hj)) (fun k => rfl) hdelivered
  · intro h sendbuff recvbuff
    refine (fits h).right.mono fun r buff hbuff hr i hi => ?_
    rw [← a.sent_read sendbuff recvbuff hr]
    exact hbuff hr i hi

end AlltoAll

/-! ## All-to-all with counts -/

/-- The arguments of `AlltoAllvBootstrap` on all ranks. What a rank expects from another one is what this sends to it. -/
structure AlltoAllv where
  nranks : Nat
  datatype : DataType
  sendcounts : Nat → Nat → Nat
  sdispls : Nat → Nat → Nat
  recvcounts : Nat → Nat → Nat
  rdispls : Nat → Nat → Nat
  matching : ∀ r i, r < nranks → i < nranks → r ≠ i → recvcounts r i = sendcounts i r

namespace AlltoAllv
variable (a : AlltoAllv) (sendbuff recvbuff : Nat → Buffer)

def bytes (count : Nat) : Nat := count * getFlagcxDataTypeSize a.datatype

/-- All ranks call `AlltoAllvBootstrap`. -/
def procs (r : Nat) : Coll Packet Empty Buffer :=
  if r < a.nranks then
    AlltoAllvBootstrap r a.nranks (sendbuff r) (a.sendcounts r) (a.sdispls r) (recvbuff r) (a.recvcounts r) (a.rdispls r) a.datatype
  else .done (recvbuff r)

/-- The channels between the ranks. -/
def network : Network Nat Port Packet Empty Result Buffer := .start (a.procs sendbuff recvbuff)

/-- Every run comes to its end, and then block `i` of rank `r` is what rank `i` has for `r`, whatever the buffers hold. -/
def Right : Prop := ∀ sendbuff recvbuff, (a.network sendbuff recvbuff).Completes fun r buff => r < a.nranks →
  ∀ i < a.nranks, buff.read (a.bytes (a.rdispls r i)) (a.bytes (a.sendcounts i r)) =
    (sendbuff i).read (a.bytes (a.sdispls i r)) (a.bytes (a.sendcounts i r))

/-- An `int` holds the sizes of the blocks for other ranks, and the blocks that a rank receives lie apart. -/
structure Fits : Prop where
  sizes : ∀ r i, r < a.nranks → i < a.nranks → r ≠ i → a.bytes (a.sendcounts r i) < 2 ^ 31
  apart : ∀ r i j, r < a.nranks → i < a.nranks → j < a.nranks → i ≠ j → Buffer.Apart (a.bytes (a.rdispls r i))
    (a.bytes (a.sendcounts i r)) (a.bytes (a.rdispls r j)) (a.bytes (a.sendcounts j r))

def blocks : Blocks where
  n := a.nranks
  tag := tagAlltoAllv
  size r i := a.bytes (a.sendcounts r i)
  sendAt r i := a.bytes (a.sdispls r i)
  recvAt r i := a.bytes (a.rdispls r i)

theorem network_eq : a.network sendbuff recvbuff = (a.blocks.exchange sendbuff recvbuff).start := by
  refine congrArg Network.start (funext fun r => ?_)
  rw [procs]
  by_cases hr : r < a.nranks
  · rw [if_pos hr, if_pos (show r < (a.blocks.exchange (ν := Empty) sendbuff recvbuff).n from hr)]
    refine foldlM_congr (fun buff i hi => ?_) (recvbuff r)
    rw [Exchange.round]
    by_cases hir : i = r
    · rw [if_pos hir, if_pos hir, hir]
      rfl
    · rw [if_neg hir, if_neg hir, a.matching r i hr (mem_range.1 hi) (Ne.symm hir)]
      rfl
  · rw [if_neg hr, if_neg (show ¬ r < (a.blocks.exchange (ν := Empty) sendbuff recvbuff).n from hr)]
    rfl

variable {a}

/-- All-to-all with counts is right exactly when the blocks fit. -/
theorem right_iff : a.Right ↔ a.Fits := by
  constructor
  · intro h
    -- one rank has ones for all others, and there are zeros elsewhere
    let ones : Nat → Nat → Buffer := fun i j _ => if j = i then 1 else 0
    have hcompletes : ∀ i, (a.blocks.exchange (ones i) fun _ _ => 0).start.Completes (a.blocks.Delivered (ones i)) := fun i => by
      rw [← network_eq]
      exact h (ones i) fun _ _ => 0
    constructor
    · intro i r hi hr hir
      by_contra hsize
      exact Blocks.not_delivered (b := a.blocks) hr hi hir (not_lt.1 hsize) (fun k _ => if_pos rfl)
        (fun j _ hj k _ => if_neg hj) (fun k => rfl) (hcompletes i)
    · intro r i j hr hi hj hij k hk k' hk' heq
      obtain ⟨as, n', hexec, hdone⟩ := (hcompletes i).exists_run
      obtain ⟨buff, hbuff⟩ := hdone r
      have hblocks := (hcompletes i).right as n' hexec r buff hbuff hr
      have hone : buff (a.bytes (a.rdispls r i) + k) = 1 := (Buffer.read_eq.1 (hblocks i hi) k hk).trans (if_pos rfl)
      have hzero : buff (a.bytes (a.rdispls r j) + k') = 0 :=
        (Buffer.read_eq.1 (hblocks j hj) k' hk').trans (if_neg (Ne.symm hij))
      rw [heq, hzero] at hone
      cases hone
  · intro h sendbuff recvbuff
    rw [network_eq]
    exact Blocks.Fits.right ⟨h.sizes, h.apart⟩

end AlltoAllv

/-! ## Both -/

/-- **All-to-all never comes to a halt**, even if every send waits for its receive. It is right exactly when an `int` holds the
sizes of the blocks for other ranks, and with counts also only when the blocks that a rank receives lie apart. -/
theorem alltoall_right (a : AlltoAll) (v : AlltoAllv) :
    ((∀ sendbuff recvbuff, (a.network sendbuff recvbuff).Completes fun _ _ => True) ∧
      (a.Right ↔ a.nranks ≤ 1 ∨ a.size < 2 ^ 31)) ∧
    (∀ sendbuff recvbuff, (v.network sendbuff recvbuff).Completes fun _ _ => True) ∧ (v.Right ↔ v.Fits) := by
  refine ⟨⟨fun sendbuff recvbuff => ?_, AlltoAll.right_iff⟩, fun sendbuff recvbuff => ?_, AlltoAllv.right_iff⟩
  · rw [AlltoAll.network_eq]
    exact (Blocks.completes _ _ _).mono fun _ _ _ => trivial
  · rw [AlltoAllv.network_eq]
    exact (Blocks.completes _ _ _).mono fun _ _ _ => trivial

/-- Two ranks exchange blocks of 2 GiB. -/
def large : AlltoAll := ⟨2, 2 ^ 31, .uint8, fun _ => false⟩

theorem large_not_right : ¬ large.Right := fun h => by
  rcases AlltoAll.right_iff.1 h with h | h
  · exact absurd h (by decide)
  · exact absurd h (by decide)

end FlagCX.Bootstrap
