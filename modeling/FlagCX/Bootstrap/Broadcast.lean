import FlagCX.Bootstrap.AllGather

/-!
# Broadcast of the bootstrap (`BroadcastBootstrap`)

The root copies and sends the bytes at `sendbuff + i * count * typeSize` for rank `i`, itself included, as if it scattered.

* `Broadcast.right_iff` : every rank gets the root's buffer, and nothing behind it is read, only if there is one rank or nothing
  to send.
* `broadcast_allGather_right` : this together with AllGather.

Each read of the send buffer is recorded with its address and its number of bytes.
-/

namespace FlagCX.Bootstrap
open Lib Function List

/-! ## The program -/

def tagBroadcast : Int := -9994

structure Read where
  addr : Nat
  bytes : Nat
  deriving DecidableEq

/-- The `memcpy` of `bytes` bytes from the send buffer at `addr` to `recvbuff`, unless this is the same place. -/
def copyTo (recvbuff addr bytes : Nat) (mem : Buffer) : Coll Packet Read Buffer :=
  if addr ≠ recvbuff then .note ⟨addr, bytes⟩ (.done (mem.write recvbuff (mem.read addr bytes))) else .done mem

def broadcastTo (root sendbuff size : Nat) (mem : Buffer) (i : Nat) : Coll Packet Read PUnit :=
  if i ≠ root then .note ⟨sendbuff + i * size, (toInt size).toNat⟩ (bootstrapSend i tagBroadcast mem (sendbuff + i * size) (toInt size))
  else .done ⟨⟩

/-- `BroadcastBootstrap`: the memory at the end. -/
def BroadcastBootstrap (rank nranks root sendbuff recvbuff count : Nat) (datatype : DataType) (mem : Buffer) :
    Coll Packet Read Buffer :=
  let size := count * getFlagcxDataTypeSize datatype
  if nranks = 1 then copyTo recvbuff sendbuff size mem
  else if rank = root then do
    let mem ← copyTo recvbuff (sendbuff + root * size) size mem
    (range nranks).forM (broadcastTo root sendbuff size mem)
    .done mem
  else bootstrapRecv root tagBroadcast mem recvbuff (toInt size)

/-- The arguments of `BroadcastBootstrap` that are the same on all ranks. -/
structure Broadcast where
  nranks : Nat
  root : Nat
  count : Nat
  datatype : DataType
  root_lt : root < nranks

namespace Broadcast
variable (b : Broadcast) (mem : Nat → Buffer) (sendbuff recvbuff : Nat → Nat)

def size : Nat := b.count * getFlagcxDataTypeSize b.datatype

/-- All ranks call `BroadcastBootstrap`. -/
def network : Network Nat Port Packet Read Result Buffer := .start fun r =>
  if r < b.nranks then BroadcastBootstrap r b.nranks b.root (sendbuff r) (recvbuff r) b.count b.datatype (mem r)
  else .done (mem r)

/-- The read is one of the first `count` elements of the send buffer. -/
def Inside (sendbuff : Nat) (read : Read) : Prop :=
  read.bytes = 0 ∨ sendbuff ≤ read.addr ∧ read.addr + read.bytes ≤ sendbuff + b.size

/-- Every run ends, and then all ranks have the root's send buffer and none has read outside its own, wherever the buffers are
and whatever they hold. -/
def Right : Prop := ∀ mem sendbuff recvbuff, (b.network mem sendbuff recvbuff).Settles fun n' => ∀ r < b.nranks,
  (∃ m, n'.procs r = .done m ∧ m.read (recvbuff r) b.size = (mem b.root).read (sendbuff b.root) b.size) ∧
    ∀ read ∈ n'.notes r, b.Inside (sendbuff r) read

variable {b mem sendbuff recvbuff}

theorem right_of_alone (h : b.nranks = 1) : b.Right := by
  intro mem sendbuff recvbuff
  have hroot : b.root = 0 := by
    have := b.root_lt
    omega
  have hother : ∀ r, r ≠ 0 → (b.network mem sendbuff recvbuff).procs r = .done (mem r) := fun r hr => if_neg (by omega)
  have hself : (b.network mem sendbuff recvbuff).procs 0 = copyTo (recvbuff 0) (sendbuff 0) b.size (mem 0) := by
    refine (if_pos (by omega)).trans ?_
    exact if_pos h
  rw [copyTo] at hself
  by_cases hplace : sendbuff 0 = recvbuff 0
  · rw [if_neg (not_not.2 hplace)] at hself
    have hexec : exec Network.step (b.network mem sendbuff recvbuff) [] = some (b.network mem sendbuff recvbuff) := rfl
    refine .of_run hexec (fun r => ?_) fun r hr => ?_
    · by_cases hr : r = 0
      · rw [hr]
        exact Network.step_done hself
      · exact Network.step_done (hother r hr)
    · obtain rfl : r = 0 := by omega
      refine ⟨⟨_, hself, ?_⟩, fun read hread => (not_mem_nil hread).elim⟩
      rw [hroot, hplace]
  · rw [if_pos hplace] at hself
    have hpath : Path ((b.network mem sendbuff recvbuff).procs 0) [.noted ⟨sendbuff 0, b.size⟩]
        (.done ((mem 0).write (recvbuff 0) ((mem 0).read (sendbuff 0) b.size))) := by
      rw [hself]
      exact .note (.refl _)
    obtain ⟨as, n', hexec, hh⟩ := Network.follow hpath fun a port => nil_prefix
    have hself' := hh.procs (i := 0) (by rw [update_self]; exact hpath)
    refine .of_run hexec (fun r => ?_) fun r hr => ?_
    · by_cases hr : r = 0
      · rw [hr]
        exact Network.step_done hself'
      · refine Network.step_done (a := mem r) (hh.procs ?_)
        rw [update_of_ne hr, hother r hr]
        exact .refl _
    · obtain rfl : r = 0 := by omega
      refine ⟨⟨_, hself', ?_⟩, fun read hread => ?_⟩
      · rw [hroot, Buffer.read_write_read]
      · rw [hh.notes, update_self] at hread
        rw [mem_singleton.1 hread]
        exact .inr ⟨le_rfl, le_rfl⟩

/-! ## Nothing to send -/

def copyEvents (b : Broadcast) (sendbuff recvbuff : Nat) : List (Event Nat Port Packet Read) :=
  if sendbuff + b.root * b.size ≠ recvbuff then [.noted ⟨sendbuff + b.root * b.size, b.size⟩] else []

/-- What it does for rank `i`. -/
def sendEvents (b : Broadcast) (sendbuff i : Nat) : List (Event Nat Port Packet Read) :=
  if i ≠ b.root then [.noted ⟨sendbuff + i * b.size, 0⟩, .sent i (.tag tagBroadcast) (.message 0 [])] else []

theorem root_path (b : Broadcast) (mem : Nat → Buffer) (sendbuff recvbuff : Nat → Nat) (hranks : b.nranks ≠ 1)
    (hsize : b.size = 0) : Path ((b.network mem sendbuff recvbuff).procs b.root)
    (b.copyEvents (sendbuff b.root) (recvbuff b.root) ++
      ((range b.nranks).flatMap (b.sendEvents (sendbuff b.root)) ++ [])) (.done (mem b.root)) := by
  have hcopy : Path (copyTo (recvbuff b.root) (sendbuff b.root + b.root * b.size) b.size (mem b.root))
      (b.copyEvents (sendbuff b.root) (recvbuff b.root)) (.done (mem b.root)) := by
    rw [copyTo, copyEvents]
    split_ifs
    · rw [hsize, show (mem b.root).read _ 0 = [] from rfl, Buffer.write_nil]
      exact .note (.refl _)
    · exact .refl _
  have hsend : ∀ i, Path (broadcastTo b.root (sendbuff b.root) b.size (mem b.root) i) (b.sendEvents (sendbuff b.root) i)
      (.done ⟨⟩) := fun i => by
    rw [broadcastTo, sendEvents]
    split_ifs
    · rw [hsize]
      exact .note (.send (.refl _))
    · exact .refl _
  rw [show (b.network mem sendbuff recvbuff).procs b.root = _ from if_pos b.root_lt, BroadcastBootstrap]
  rw [if_neg hranks, if_pos rfl]
  refine Path.bind_run hcopy rfl ?_
  exact Path.bind_run (Path.forM_run fun i _ => hsend i) rfl (.refl _)

theorem root_reads (hsize : b.size = 0) {sendbuff recvbuff : Nat} {read : Read}
    (hread : read ∈ notesOf (b.copyEvents sendbuff recvbuff ++ ((range b.nranks).flatMap (b.sendEvents sendbuff) ++ []))) :
    read.bytes = 0 := by
  rw [append_nil, notesOf_append, notesOf_flatMap] at hread
  rcases mem_append.1 hread with hcopy | hsend
  · rw [copyEvents] at hcopy
    split_ifs at hcopy
    · rw [mem_singleton.1 hcopy]
      exact hsize
    · cases hcopy
  · obtain ⟨i, -, hi⟩ := mem_flatMap.1 hsend
    rw [sendEvents] at hi
    split_ifs at hi
    · rw [mem_singleton.1 hi]
    · cases hi

theorem right_of_empty (hranks : b.nranks ≠ 1) (hsize : b.size = 0) : b.Right := by
  intro mem sendbuff recvbuff
  have hcopy : ∀ a port, gotFrom a port (b.copyEvents (sendbuff b.root) (recvbuff b.root)) = [] := fun a port => by
    rw [copyEvents]
    split_ifs <;> rfl
  have hsends : ∀ i a port, gotFrom a port (b.sendEvents (sendbuff b.root) i) = [] := fun i a port => by
    rw [sendEvents]
    split_ifs <;> rfl
  have hpath := b.root_path mem sendbuff recvbuff hranks hsize
  -- the root sends
  obtain ⟨as, n₁, hexec, hh⟩ := Network.follow hpath fun a port => by
    rw [gotFrom_append, gotFrom_append, gotFrom_flatMap, hcopy, flatMap_eq_nil_iff.2 fun i _ => hsends i a port]
    exact nil_prefix
  have hroot : n₁.procs b.root = .done (mem b.root) := hh.procs (by rw [update_self]; exact hpath)
  have hwait : ∀ r, r ≠ b.root → n₁.procs r = (b.network mem sendbuff recvbuff).procs r := fun r hr =>
    hh.procs (by rw [update_of_ne hr]; exact .refl _)
  have hchan : ∀ r, r < b.nranks → r ≠ b.root → n₁.chans (b.root, r, .tag tagBroadcast) = [.message 0 []] := fun r hr hne => by
    have hchans := hh.chans b.root r (.tag tagBroadcast)
    rw [update_self, update_of_ne hne] at hchans
    have hsent : sentTo r (.tag tagBroadcast) ((range b.nranks).flatMap (b.sendEvents (sendbuff b.root))) =
        [.message 0 []] := by
      rw [sentTo_flatMap, flatMap_single nodup_range (mem_range.2 hr)]
      · rw [sendEvents, if_pos hne]
        simp [sentTo]
      · intro i _ hi
        rw [sendEvents]
        split_ifs
        · simp [sentTo, hi]
        · rfl
    have hnone : sentTo r (.tag tagBroadcast) (b.copyEvents (sendbuff b.root) (recvbuff b.root)) = [] := by
      rw [copyEvents]
      split_ifs <;> rfl
    rw [sentTo_append, sentTo_append, hnone, hsent] at hchans
    exact hchans.symm
  -- the others receive
  have hothers : ∀ r ∈ (range b.nranks).filter (· ≠ b.root), r < b.nranks ∧ r ≠ b.root := fun r hr => by
    simpa using hr
  have hgot : ∀ r ∈ (range b.nranks).filter (· ≠ b.root),
      Path (n₁.procs r) ([.message 0 []].map (.got b.root (.tag tagBroadcast))) (.done (mem r)) := fun r hr => by
    obtain ⟨hlt, hne⟩ := hothers r hr
    have hsize' : b.count * getFlagcxDataTypeSize b.datatype = 0 := hsize
    rw [hwait r hne, show (b.network mem sendbuff recvbuff).procs r = _ from if_pos hlt, BroadcastBootstrap, if_neg hranks,
      if_neg hne, hsize']
    refine .recv ?_
    rw [bootstrapNetRecv, if_neg (by decide), show take _ [] = ([] : List UInt8) from take_nil, Buffer.write_nil]
    exact .refl _
  let gots : Nat → List (Event Nat Port Packet Read) := fun r =>
    if r ∈ (range b.nranks).filter (· ≠ b.root) then [.message 0 []].map (.got b.root (.tag tagBroadcast)) else []
  obtain ⟨bs, n₂, hexec', hh'⟩ := Network.reach (n := n₁) (h := gots) ((range b.nranks).filter (· ≠ b.root))
    (nodup_range.filter _) (fun r => .done (mem r))
    (fun r hr => by
      simp only [gots, if_pos hr]
      exact hgot r hr)
    (fun r hr => if_neg hr)
    (fun r a port => by
      by_cases hr : r ∈ (range b.nranks).filter (· ≠ b.root)
      · simp only [gots, if_pos hr, Network.gotFrom_gots]
        split_ifs with hkey
        · obtain ⟨rfl, rfl⟩ := hkey
          exact ⟨[], (hchan r (hothers r hr).1 (hothers r hr).2).symm⟩
        · exact nil_prefix
      · simp only [gots, if_neg hr]
        exact nil_prefix)
  -- all are at their ends, and nothing was read
  have hdone : ∀ r, n₂.procs r = .done (mem r) := fun r => hh'.procs (by
    by_cases hr : r ∈ (range b.nranks).filter (· ≠ b.root)
    · simp only [gots, if_pos hr]
      exact hgot r hr
    · simp only [gots, if_neg hr]
      by_cases hne : r = b.root
      · rw [hne, hroot]
        exact .refl _
      · have hlarge : ¬ r < b.nranks := fun hlt => hr (by simpa using ⟨hlt, hne⟩)
        rw [hwait r hne, show (b.network mem sendbuff recvbuff).procs r = _ from if_neg hlarge]
        exact .refl _)
  have hempty : ∀ r, ∀ read ∈ n₂.notes r, read.bytes = 0 := fun r read hread => by
    rw [hh'.notes, hh.notes] at hread
    rcases mem_append.1 hread with hread | hread
    · by_cases hne : r = b.root
      · rw [hne, update_self] at hread
        exact root_reads hsize hread
      · rw [update_of_ne hne] at hread
        cases hread
    · by_cases hr : r ∈ (range b.nranks).filter (· ≠ b.root)
      · simp only [gots, if_pos hr, Network.notesOf_gots] at hread
        cases hread
      · simp only [gots, if_neg hr] at hread
        cases hread
  have hboth : exec Network.step (b.network mem sendbuff recvbuff) (as ++ bs) = some n₂ := by
    rw [exec_append, hexec]
    exact hexec'
  refine .of_run hboth (fun r => Network.step_done (hdone r)) fun r hr =>
    ⟨⟨_, hdone r, by rw [hsize]; rfl⟩, fun read hread => .inl (hempty r read hread)⟩

/-! ## Something to send -/

theorem Inside.bytes_eq_zero {sendbuff addr bytes : Nat} (h : b.Inside sendbuff ⟨addr, bytes⟩)
    (hbehind : sendbuff + b.size ≤ addr) : bytes = 0 := by
  rcases h with hempty | ⟨-, hle⟩
  · exact hempty
  · dsimp only at hle
    omega

theorem not_right (hranks : b.nranks ≠ 1) (hsize : 0 < b.size) : ¬ b.Right := by
  intro h
  have hlt := b.root_lt
  -- the root has ones and the others have zeros; the buffers are at address 0
  obtain ⟨as, n', hexec, -, hQ⟩ := (h (fun i _ => if i = b.root then 1 else 0) (fun _ => 0) fun _ => 0).exists_run
  obtain ⟨hs, hh, -⟩ := Network.histories hexec
  obtain ⟨⟨m, hm, -⟩, hreads⟩ := hQ b.root hlt
  have hnotes : ∀ read ∈ notesOf (hs b.root), b.Inside 0 read := fun read hread => hreads read (by
    rw [hh.notes]
    exact mem_append_right _ hread)
  have hpath := hh.path b.root
  rw [hm, show (b.network _ (fun _ => 0) fun _ => 0).procs b.root = _ from if_pos hlt, BroadcastBootstrap, if_neg hranks,
    if_pos rfl] at hpath
  obtain ⟨mem', h₁, h₂, hsplit, hcopy, hrest⟩ := hpath.bind_done
  obtain ⟨_, h₃, h₄, rfl, hloop, -⟩ := hrest.bind_done
  by_cases hzero : b.root = 0
  · -- the read for rank 1 begins where the buffer ends
    have hone : 1 < b.nranks := by omega
    obtain ⟨h₅, h', h₆, rfl, hround⟩ := hloop.forM_mem (mem_range.2 hone)
    rw [broadcastTo, if_pos (by omega)] at hround
    have hshort : (toInt b.size).toNat = 0 := by
      cases hround with
      | note _ =>
        have hmem : ⟨0 + 1 * b.size, (toInt b.size).toNat⟩ ∈ notesOf (hs b.root) := by
          simp only [hsplit, notesOf_append, mem_append]
          exact .inr (.inl (.inr (.inl (.head _))))
        apply (hnotes _ hmem).bytes_eq_zero
        simp
    -- and nothing is sent, so that rank 1 gets nothing
    obtain ⟨⟨m', hm', hread⟩, -⟩ := hQ 1 hone
    have hpath' := hh.path 1
    rw [hm', show (b.network _ (fun _ => 0) fun _ => 0).procs 1 = _ from if_pos hone, BroadcastBootstrap, if_neg hranks,
      if_neg (by omega)] at hpath'
    have hkept := recv_done hpath' (k := 0) (by
      have hshort' : (toInt (b.count * getFlagcxDataTypeSize b.datatype)).toNat = 0 := hshort
      rw [hshort'])
    have hcell := (Buffer.read_eq.1 hread 0 hsize).trans (if_pos rfl)
    rw [hkept, if_neg (by omega)] at hcell
    exact absurd hcell (by decide)
  · -- the root's own copy begins where the buffer ends, or later
    have hfar : b.size ≤ b.root * b.size := Nat.le_mul_of_pos_left _ (Nat.pos_of_ne_zero hzero)
    have hplace : 0 + b.root * b.size ≠ 0 := by omega
    rw [copyTo] at hcopy
    replace hcopy : Path (.note ⟨0 + b.root * b.size, b.size⟩ (.done _)) h₁ (.done mem') := (if_pos hplace) ▸ hcopy
    cases hcopy with
    | note _ =>
      have hmem : ⟨0 + b.root * b.size, b.size⟩ ∈ notesOf (hs b.root) := by
        simp only [hsplit, notesOf_append, mem_append]
        exact .inl (.head _)
      refine hsize.ne' ((hnotes _ hmem).bytes_eq_zero ?_)
      simpa using hfar

/-- A broadcast is right exactly when there is one rank, or nothing to send. -/
theorem right_iff : b.Right ↔ b.nranks = 1 ∨ b.count = 0 := by
  constructor
  · intro h
    by_contra hnot
    obtain ⟨hranks, hcount⟩ := not_or.1 hnot
    exact not_right hranks (Nat.mul_pos (Nat.pos_of_ne_zero hcount) (typeSize_pos _)) h
  · intro h
    by_cases hranks : b.nranks = 1
    · exact right_of_alone hranks
    · refine right_of_empty hranks ?_
      rw [size, h.resolve_left hranks, Nat.zero_mul]

end Broadcast

/-- **Broadcast and AllGather**: a broadcast is right only for one rank or nothing to send, and AllGather exactly when an `int` holds
the size of a block or there is one rank. -/
theorem broadcast_allGather_right (b : Broadcast) (a : AllGather) :
    (b.Right ↔ b.nranks = 1 ∨ b.count = 0) ∧ (a.Right ↔ a.nranks ≤ 1 ∨ a.size < 2 ^ 31) :=
  ⟨Broadcast.right_iff, AllGather.right_iff⟩

def second : Broadcast := ⟨2, 1, 4, .int32, by decide⟩

theorem second_not_right : ¬ second.Right := Broadcast.not_right (by decide) (by decide)

end FlagCX.Bootstrap
