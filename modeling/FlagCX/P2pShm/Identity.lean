import Mathlib.Data.Nat.ModEq
import Mathlib.Data.Nat.Bitwise

/-!
# The identity of a transfer (`makeKey`, `setP2pSlotInfo`, `flagcxP2pPrepareProxyOp`)

The two processes of an intra-node transfer meet in a slot of their shared memory. Each computes the hash and the slot of both
ends from counters in a map of its own.

* `setP2pSlotInfo`, `prepareProxyOp` : what an operation computes.
* `Process.prepare`         : all operations of a process; `prepare_identity` : what they get.
-/

namespace FlagCX.P2pShm
open Function Option List

/-- `FLAGCX_P2P_MAX_OPS / 2`. -/
def halfOps : Nat := 16

/-- `(uint64_t(value) & ((1ULL << bits) - 1)) << shift`. -/
def keyField (value bits shift : Nat) : BitVec 64 := (BitVec.ofNat 64 value &&& BitVec.ofNat 64 (2 ^ bits - 1)) <<< shift

/-- What identifies a map entry: the rank, its peer, the size and the data type. -/
structure KeyArgs where
  rank : Nat
  peerRank : Nat
  size : Nat
  dtype : Nat
  deriving DecidableEq, Repr

/-- The assertions of `makeKey`. -/
def KeyArgs.InRange (k : KeyArgs) : Prop :=
  k.rank < 2 ^ 14 ∧ k.peerRank < 2 ^ 14 ∧ k.size < 2 ^ 37 ∧ k.dtype < 2 ^ 4 ∧
    -16 ≤ (k.peerRank : Int) - k.rank ∧ (k.peerRank : Int) - k.rank ≤ 15

instance (k : KeyArgs) : Decidable k.InRange := inferInstanceAs (Decidable (_ ∧ _))

def KeyArgs.deltaEnc (k : KeyArgs) : Nat := ((k.peerRank : Int) - k.rank + 16).toNat

def makeKey (k : KeyArgs) : Option (BitVec 64) :=
  if k.InRange then
    some (keyField k.rank 14 50 ||| keyField k.deltaEnc 5 45 ||| keyField k.size 37 8 ||| keyField k.dtype 4 4)
  else none

/-- `p2pOpHashMap`: the counters of sends and receives of a key. -/
abbrev OpHashMap := BitVec 64 → Option (BitVec 32 × BitVec 32)

structure SlotInfo where
  opHash : BitVec 64
  slotIdx : Nat
  deriving DecidableEq, Repr

def slotInfo (key : BitVec 64) (isRecv : Bool) (opHashCounter : BitVec 32) : SlotInfo where
  opHash := key + opHashCounter.signExtend 64
  slotIdx := (key + opHashCounter.signExtend 64).toNat % halfOps + if isRecv then halfOps else 0

/-- `setP2pSlotInfo`. The counters are of type `int`. -/
def setP2pSlotInfo (m : OpHashMap) (k : KeyArgs) (isRecv : Bool) : Option (OpHashMap × SlotInfo) :=
  (makeKey k).map fun key =>
    match m key, isRecv with
    | some (sends, recvs), true => (update m key (some (sends, recvs + 1)), slotInfo key isRecv (recvs + 1))
    | some (sends, recvs), false => (update m key (some (sends + 1, recvs)), slotInfo key isRecv (sends + 1))
    | none, true => (update m key (some (0, 1)), slotInfo key isRecv 1)
    | none, false => (update m key (some (1, 0)), slotInfo key isRecv 1)

/-- The part of a `flagcxProxyOp` that its identity depends on. -/
structure Op where
  comm : Nat
  isRecv : Bool
  peer : Nat
  size : Nat
  dtype : Nat
  deriving DecidableEq, Repr

/-- `p2pOpHash` with `p2pSlotIdx`, `p2pPeerOpHash` with `p2pPeerSlotIdx`. -/
structure Identity where
  own : SlotInfo
  peer : SlotInfo
  deriving DecidableEq, Repr

/-- The part of `flagcxP2pPrepareProxyOp` that computes the identity, for an operation of `rank`. -/
def prepareProxyOp (m : OpHashMap) (rank : Nat) (op : Op) : Option (OpHashMap × Identity) := do
  let (m, own) ← setP2pSlotInfo m ⟨rank, op.peer, op.size, op.dtype⟩ op.isRecv
  let (m, peer) ← setP2pSlotInfo m ⟨op.peer, rank, op.size, op.dtype⟩ (!op.isRecv)
  return (m, ⟨own, peer⟩)

/-- A process: its rank in every communicator and its operations in the order in which it issues them. -/
structure Process where
  rank : Nat → Nat
  ops : List Op

/-- The operations of a process, one after the other. -/
def prepareAll (rank : Nat → Nat) : OpHashMap → List Op → Option (List Identity)
  | _, [] => some []
  | m, op :: ops => do
    let (m, identity) ← prepareProxyOp m (rank op.comm) op
    return identity :: (← prepareAll rank m ops)

def Process.prepare (p : Process) : Option (List Identity) := prepareAll p.rank (fun _ => none) p.ops

/-! ## Keys -/

theorem keyField_toNat {value bits shift : Nat} (hv : value < 2 ^ bits) (hs : bits + shift ≤ 64) :
    (keyField value bits shift).toNat = 2 ^ shift * value := by
  have hbits : 2 ^ bits ≤ 2 ^ 64 := Nat.pow_le_pow_right (by omega) (by omega)
  have hlt : 2 ^ shift * value < 2 ^ 64 := by
    calc 2 ^ shift * value < 2 ^ shift * 2 ^ bits := by exact Nat.mul_lt_mul_of_pos_left hv (Nat.two_pow_pos shift)
      _ = 2 ^ (shift + bits) := (pow_add 2 shift bits).symm
      _ ≤ 2 ^ 64 := Nat.pow_le_pow_right (by omega) (by omega)
  have hmask : 2 ^ bits - 1 < 2 ^ 64 := by omega
  rw [keyField, BitVec.toNat_shiftLeft, BitVec.toNat_and, BitVec.toNat_ofNat, BitVec.toNat_ofNat,
    Nat.mod_eq_of_lt (hv.trans_le hbits), Nat.mod_eq_of_lt hmask, Nat.and_two_pow_sub_one_eq_mod, Nat.mod_eq_of_lt hv,
    Nat.shiftLeft_eq, mul_comm, Nat.mod_eq_of_lt hlt]

variable {k : KeyArgs} {key : BitVec 64}

theorem makeKey_toNat (h : makeKey k = some key) :
    k.InRange ∧ key.toNat = 2 ^ 50 * k.rank + (2 ^ 45 * k.deltaEnc + (2 ^ 8 * k.size + 2 ^ 4 * k.dtype)) := by
  rw [makeKey] at h
  split_ifs at h with hr
  obtain rfl := some.inj h
  obtain ⟨hrank, hpeer, hsize, hdtype, hlow, hhigh⟩ := hr
  have hdelta : k.deltaEnc < 2 ^ 5 := by
    rw [KeyArgs.deltaEnc]
    omega
  refine ⟨⟨hrank, hpeer, hsize, hdtype, hlow, hhigh⟩, ?_⟩
  rw [BitVec.toNat_or, BitVec.toNat_or, BitVec.toNat_or, keyField_toNat hrank (by omega), keyField_toNat hdelta (by omega),
    keyField_toNat hsize (by omega), keyField_toNat hdtype (by omega), Nat.or_assoc, Nat.or_assoc]
  have hlow8 : 2 ^ 8 * k.size ||| 2 ^ 4 * k.dtype = 2 ^ 8 * k.size + 2 ^ 4 * k.dtype :=
    (Nat.two_pow_add_eq_or_of_lt (by omega) _).symm
  have hlow45 : 2 ^ 45 * k.deltaEnc ||| (2 ^ 8 * k.size + 2 ^ 4 * k.dtype) =
      2 ^ 45 * k.deltaEnc + (2 ^ 8 * k.size + 2 ^ 4 * k.dtype) :=
    (Nat.two_pow_add_eq_or_of_lt (by omega) _).symm
  rw [hlow8, hlow45]
  exact (Nat.two_pow_add_eq_or_of_lt (by omega) _).symm

theorem makeKey_inj {k' : KeyArgs} (h : makeKey k = some key) (h' : makeKey k' = some key) : k = k' := by
  obtain ⟨⟨hrank, hpeer, hsize, hdtype, hlow, hhigh⟩, hkey⟩ := makeKey_toNat h
  obtain ⟨⟨hrank', hpeer', hsize', hdtype', hlow', hhigh'⟩, hkey'⟩ := makeKey_toNat h'
  rw [hkey] at hkey'
  rw [KeyArgs.deltaEnc, KeyArgs.deltaEnc] at hkey'
  have hr : k.rank = k'.rank := by omega
  have hp : k.peerRank = k'.peerRank := by omega
  have hs : k.size = k'.size := by omega
  cases k
  cases k'
  simp_all

/-! ## Counters -/

def OpHashMap.counter (m : OpHashMap) (key : BitVec 64) (isRecv : Bool) : BitVec 32 :=
  match m key, isRecv with
  | some (_, recvs), true => recvs
  | some (sends, _), false => sends
  | none, _ => 0

theorem OpHashMap.counter_update (m : OpHashMap) (key key' : BitVec 64) (sends recvs : BitVec 32) (isRecv : Bool) :
    OpHashMap.counter (update m key (some (sends, recvs))) key' isRecv =
      if key' = key then (if isRecv then recvs else sends) else m.counter key' isRecv := by
  by_cases hk : key' = key
  · subst hk
    cases isRecv <;> simp [counter]
  · simp [counter, hk]

variable {m m' : OpHashMap}

theorem setP2pSlotInfo_eq_some {isRecv : Bool} {info : SlotInfo} (h : setP2pSlotInfo m k isRecv = some (m', info)) :
    ∃ key, makeKey k = some key ∧ info = slotInfo key isRecv (m.counter key isRecv + 1) ∧
      ∀ key' isRecv', m'.counter key' isRecv' =
        if key' = key ∧ isRecv' = isRecv then m.counter key isRecv + 1 else m.counter key' isRecv' := by
  obtain ⟨key, hkey, heq⟩ := map_eq_some_iff.1 h
  refine ⟨key, hkey, ?_⟩
  -- the key is known or not, and the two counters are updated alike
  rcases hm : m key with _ | ⟨sends, recvs⟩ <;> cases isRecv <;> rw [hm] at heq <;>
    obtain ⟨rfl, rfl⟩ := Prod.mk.inj heq <;> refine ⟨by simp [OpHashMap.counter, hm], fun key' isRecv' => ?_⟩ <;>
    rw [OpHashMap.counter_update] <;> by_cases hk : key' = key <;> cases isRecv' <;> simp [OpHashMap.counter, hm, hk]

theorem setP2pSlotInfo_isSome {isRecv : Bool} : (setP2pSlotInfo m k isRecv).isSome ↔ k.InRange := by
  rw [setP2pSlotInfo, isSome_map, makeKey]
  split_ifs with h <;> simp [h]

/-! ## Flows -/

/-- The transfers with one counter: source, destination, size and data type. The communicator is not part of it. -/
structure Flow where
  src : Nat
  dst : Nat
  size : Nat
  dtype : Nat
  deriving DecidableEq, Repr

variable {f : Flow}

namespace Flow

def sendKey (f : Flow) : KeyArgs := ⟨f.src, f.dst, f.size, f.dtype⟩

def recvKey (f : Flow) : KeyArgs := ⟨f.dst, f.src, f.size, f.dtype⟩

/-- The assertions hold for both ends. -/
def InRange (f : Flow) : Prop := f.sendKey.InRange ∧ f.recvKey.InRange

instance (f : Flow) : Decidable f.InRange := inferInstanceAs (Decidable (_ ∧ _))

theorem sendKey_inj {g : Flow} (h : f.sendKey = g.sendKey) : f = g := by
  cases f
  cases g
  simpa [sendKey] using h

theorem recvKey_inj {g : Flow} (h : f.recvKey = g.recvKey) : f = g := by
  cases f
  cases g
  simp_all [recvKey]

/-- The identity of an operation of the flow, `n` operations of the flow after the first. -/
def identity (f : Flow) (isRecv : Bool) (n : Nat) : Option Identity := do
  let send := slotInfo (← makeKey f.sendKey) false (BitVec.ofNat 32 (n + 1))
  let recv := slotInfo (← makeKey f.recvKey) true (BitVec.ofNat 32 (n + 1))
  return if isRecv then ⟨recv, send⟩ else ⟨send, recv⟩

end Flow

def Op.flow (op : Op) (rank : Nat) : Flow :=
  if op.isRecv then ⟨op.peer, rank, op.size, op.dtype⟩ else ⟨rank, op.peer, op.size, op.dtype⟩

/-- The map has counted `n f` operations of each flow, on both ends. -/
def OpHashMap.Counts (m : OpHashMap) (n : Flow → Nat) : Prop := ∀ f : Flow,
  (∀ key, makeKey f.sendKey = some key → m.counter key false = BitVec.ofNat 32 (n f)) ∧
    ∀ key, makeKey f.recvKey = some key → m.counter key true = BitVec.ofNat 32 (n f)

variable {n : Flow → Nat}

theorem OpHashMap.Counts.raise {send recv : BitVec 64} (hm : m.Counts n)
    (hsend : makeKey f.sendKey = some send) (hrecv : makeKey f.recvKey = some recv)
    (h : ∀ key isRecv, m'.counter key isRecv =
      m.counter key isRecv + if key = (if isRecv then recv else send) then 1 else 0) :
    m'.Counts (update n f (n f + 1)) := by
  have hnext : BitVec.ofNat 32 (n f) + 1 = BitVec.ofNat 32 (n f + 1) := by
    rw [BitVec.ofNat_add]
    rfl
  intro g
  constructor
  · intro key hkey
    rw [h, (hm g).1 key hkey]
    by_cases hk : key = send
    · subst hk
      obtain rfl : g = f := Flow.sendKey_inj (makeKey_inj hkey hsend)
      simpa using hnext
    · have hne : g ≠ f := by
        rintro rfl
        exact hk (some.inj (hkey.symm.trans hsend))
      simp [hk, update_of_ne hne]
  · intro key hkey
    rw [h, (hm g).2 key hkey]
    by_cases hk : key = recv
    · subst hk
      obtain rfl : g = f := Flow.recvKey_inj (makeKey_inj hkey hrecv)
      simpa using hnext
    · have hne : g ≠ f := by
        rintro rfl
        exact hk (some.inj (hkey.symm.trans hrecv))
      simp [hk, update_of_ne hne]

theorem Flow.identity_eq {send recv : BitVec 64} (hsend : makeKey f.sendKey = some send)
    (hrecv : makeKey f.recvKey = some recv) (isRecv : Bool) (n : Nat) :
    f.identity isRecv n =
      some (if isRecv then ⟨slotInfo recv true (BitVec.ofNat 32 (n + 1)), slotInfo send false (BitVec.ofNat 32 (n + 1))⟩
        else ⟨slotInfo send false (BitVec.ofNat 32 (n + 1)), slotInfo recv true (BitVec.ofNat 32 (n + 1))⟩) := by
  rw [identity, hsend, hrecv]
  rfl

variable {op : Op}

theorem prepareProxyOp_eq_some {rank : Nat} {identity : Identity}
    (h : prepareProxyOp m rank op = some (m', identity)) (hm : m.Counts n) :
    (op.flow rank).identity op.isRecv (n (op.flow rank)) = some identity ∧
      m'.Counts (update n (op.flow rank) (n (op.flow rank) + 1)) := by
  obtain ⟨⟨m₁, own⟩, h₁, h⟩ := bind_eq_some_iff.1 h
  obtain ⟨⟨m₂, peer⟩, h₂, h⟩ := bind_eq_some_iff.1 h
  obtain ⟨rfl, rfl⟩ := Prod.mk.inj (some.inj h)
  obtain ⟨key₁, hkey₁, rfl, hcounter₁⟩ := setP2pSlotInfo_eq_some h₁
  obtain ⟨key₂, hkey₂, rfl, hcounter₂⟩ := setP2pSlotInfo_eq_some h₂
  cases hr : op.isRecv with
  | false =>
    have hf : op.flow rank = ⟨rank, op.peer, op.size, op.dtype⟩ := by rw [Op.flow, hr]; rfl
    have hsend : makeKey (op.flow rank).sendKey = some key₁ := by rw [hf]; exact hkey₁
    have hrecv : makeKey (op.flow rank).recvKey = some key₂ := by rw [hf]; exact hkey₂
    simp only [hr, Bool.not_false] at hcounter₁ hcounter₂
    refine ⟨?_, hm.raise hsend hrecv fun key isRecv => ?_⟩
    · have hother : m₁.counter key₂ true = m.counter key₂ true := by simp [hcounter₁]
      rw [Flow.identity_eq hsend hrecv, Bool.not_false, hother, (hm _).1 key₁ hsend, (hm _).2 key₂ hrecv, BitVec.ofNat_add]
      rfl
    · rw [hcounter₂, hcounter₁, hcounter₁]
      cases isRecv with
      | false =>
        by_cases hk : key = key₁
        · subst hk
          simp
        · simp [hk]
      | true =>
        by_cases hk : key = key₂
        · subst hk
          simp
        · simp [hk]
  | true =>
    have hf : op.flow rank = ⟨op.peer, rank, op.size, op.dtype⟩ := by rw [Op.flow, hr]; rfl
    have hsend : makeKey (op.flow rank).sendKey = some key₂ := by rw [hf]; exact hkey₂
    have hrecv : makeKey (op.flow rank).recvKey = some key₁ := by rw [hf]; exact hkey₁
    simp only [hr, Bool.not_true] at hcounter₁ hcounter₂
    refine ⟨?_, hm.raise hsend hrecv fun key isRecv => ?_⟩
    · have hother : m₁.counter key₂ false = m.counter key₂ false := by simp [hcounter₁]
      rw [Flow.identity_eq hsend hrecv, Bool.not_true, hother, (hm _).1 key₂ hsend, (hm _).2 key₁ hrecv, BitVec.ofNat_add]
      rfl
    · rw [hcounter₂, hcounter₁, hcounter₁]
      cases isRecv with
      | false =>
        by_cases hk : key = key₂
        · subst hk
          simp
        · simp [hk]
      | true =>
        by_cases hk : key = key₁
        · subst hk
          simp
        · simp [hk]

theorem prepareProxyOp_isSome {rank : Nat} : (prepareProxyOp m rank op).isSome ↔ (op.flow rank).InRange := by
  have hflow : (op.flow rank).InRange ↔
      (KeyArgs.mk rank op.peer op.size op.dtype).InRange ∧ (KeyArgs.mk op.peer rank op.size op.dtype).InRange := by
    rw [Op.flow]
    split_ifs
    · exact and_comm
    · exact Iff.rfl
  rw [hflow, prepareProxyOp]
  cases h₁ : setP2pSlotInfo m ⟨rank, op.peer, op.size, op.dtype⟩ op.isRecv with
  | none =>
    have := setP2pSlotInfo_isSome.not.1 (not_isSome_iff_eq_none.2 h₁)
    simp [this]
  | some r₁ =>
    have hown := setP2pSlotInfo_isSome.1 (isSome_iff_exists.2 ⟨r₁, h₁⟩)
    cases h₂ : setP2pSlotInfo r₁.1 ⟨op.peer, rank, op.size, op.dtype⟩ (!op.isRecv) with
    | none =>
      have := setP2pSlotInfo_isSome.not.1 (not_isSome_iff_eq_none.2 h₂)
      simp [this, h₂]
    | some r₂ =>
      have hpeer := setP2pSlotInfo_isSome.1 (isSome_iff_exists.2 ⟨r₂, h₂⟩)
      simp [hown, hpeer, h₂]

/-! ## Processes -/

def Process.flows (p : Process) : List Flow := p.ops.map fun op => op.flow (p.rank op.comm)

/-- Every operation meets the assertions. -/
def Process.InRange (p : Process) : Prop := ∀ f ∈ p.flows, f.InRange

theorem prepareAll_isSome {rank : Nat → Nat} {ops : List Op} :
    (prepareAll rank m ops).isSome ↔ ∀ op ∈ ops, (op.flow (rank op.comm)).InRange := by
  induction ops generalizing m with
  | nil => simp [prepareAll]
  | cons op ops ih =>
    rw [prepareAll, forall_mem_cons, ← prepareProxyOp_isSome (m := m)]
    cases h : prepareProxyOp m (rank op.comm) op with
    | none => simp
    | some r =>
      rw [← ih (m := r.1)]
      cases h' : prepareAll rank r.1 ops with
      | none => simp [h']
      | some ids => simp [h']

theorem prepareAll_identity {rank : Nat → Nat} {ops : List Op} {ids : List Identity}
    (h : prepareAll rank m ops = some ids) (hm : m.Counts n) {i : Nat} (hi : ops[i]? = some op) :
    ∃ identity, ids[i]? = some identity ∧ (op.flow (rank op.comm)).identity op.isRecv (n (op.flow (rank op.comm)) +
        ((ops.take i).map fun op => op.flow (rank op.comm)).count (op.flow (rank op.comm))) = some identity := by
  induction ops generalizing m ids n i with
  | nil => simp at hi
  | cons op₀ ops ih =>
    obtain ⟨⟨m', identity⟩, h₀, h⟩ := bind_eq_some_iff.1 h
    obtain ⟨rest, hrest, h⟩ := bind_eq_some_iff.1 h
    obtain rfl := some.inj h
    obtain ⟨hidentity, hm'⟩ := prepareProxyOp_eq_some h₀ hm
    cases i with
    | zero =>
      obtain rfl : op₀ = op := by simpa using hi
      exact ⟨identity, rfl, by simpa using hidentity⟩
    | succ i =>
      obtain ⟨identity', hget, heq⟩ := ih hrest hm' (i := i) (by simpa using hi)
      refine ⟨identity', by simpa using hget, ?_⟩
      rw [← heq, take_succ_cons, map_cons, count_cons]
      congr 1
      by_cases hf : op₀.flow (rank op₀.comm) = op.flow (rank op.comm)
      · rw [hf, update_self]
        simp
        omega
      · rw [update_of_ne (Ne.symm hf)]
        simp [hf]

theorem OpHashMap.counts_empty : OpHashMap.Counts (fun _ => none) fun _ => 0 := fun _ => ⟨fun _ _ => rfl, fun _ _ => rfl⟩

theorem prepare_identity {p : Process} {ids : List Identity} (h : p.prepare = some ids) {i : Nat}
    (hi : p.ops[i]? = some op) :
    ∃ identity, ids[i]? = some identity ∧ (op.flow (p.rank op.comm)).identity op.isRecv
      ((p.flows.take i).count (op.flow (p.rank op.comm))) = some identity := by
  obtain ⟨identity, hget, heq⟩ := prepareAll_identity h OpHashMap.counts_empty hi
  refine ⟨identity, hget, ?_⟩
  rw [Process.flows, ← map_take]
  simpa using heq

/-! ## Two processes -/

def Op.sendsTo (c rank : Nat) (op : Op) : Bool := op.comm = c ∧ op.isRecv = false ∧ op.peer = rank

/-- A receive from `rank` on communicator `c`. -/
def Op.recvsFrom (c rank : Nat) (op : Op) : Bool := op.comm = c ∧ op.isRecv = true ∧ op.peer = rank

/-- What the two ends of a transfer have in common. -/
def Op.shape (op : Op) : Nat × Nat := (op.size, op.dtype)

/-- On every communicator the sends of `p` to `q` match the receives of `q` from `p`, one by one. -/
def Matched (p q : Process) : Prop := ∀ c,
  (p.ops.filter (Op.sendsTo c (q.rank c))).map Op.shape = (q.ops.filter (Op.recvsFrom c (p.rank c))).map Op.shape

/-- Operation `i` of `p` and operation `j` of `q` are the `k`-th send and the `k`-th receive of a communicator. -/
def Pair (p q : Process) (i j : Nat) : Prop := ∃ c a b, p.ops[i]? = some a ∧ a.sendsTo c (q.rank c) = true ∧
  q.ops[j]? = some b ∧ b.recvsFrom c (p.rank c) = true ∧
  (p.ops.take i).countP (Op.sendsTo c (q.rank c)) = (q.ops.take j).countP (Op.recvsFrom c (p.rank c))

/-- The two ends of every transfer from `p` to `q` have one identity. -/
def Agree (p q : Process) : Prop := ∃ idsP idsQ, p.prepare = some idsP ∧ q.prepare = some idsQ ∧
  ∀ i j, Pair p q i j → ∃ a b, idsP[i]? = some a ∧ idsQ[j]? = some b ∧ a.own = b.peer ∧ a.peer = b.own

/-- Before every transfer from `p` to `q` both processes have counted equally many operations of its flow, on any communicator
and with any peer, up to the width of the counters. -/
def SameCounts (p q : Process) : Prop := ∀ i j, Pair p q i j → ∀ f, p.flows[i]? = some f →
  (p.flows.take i).count f ≡ (q.flows.take j).count f [MOD 2 ^ 32]

theorem filter_getElem? {α : Type} {l : List α} {i : Nat} {a : α} {p : α → Bool} (h : l[i]? = some a) (ha : p a = true) :
    (l.filter p)[(l.take i).countP p]? = some a := by
  induction l generalizing i with
  | nil => simp at h
  | cons b l ih =>
    cases i with
    | zero =>
      obtain rfl : b = a := by simpa using h
      simp [ha]
    | succ i =>
      have hi := ih (i := i) (by simpa using h)
      rw [take_succ_cons, countP_cons]
      by_cases hb : p b = true
      · rw [filter_cons_of_pos hb, if_pos hb, getElem?_cons_succ]
        exact hi
      · rw [filter_cons_of_neg hb, if_neg hb]
        exact hi

theorem filter_take {α : Type} (l : List α) (i : Nat) (p : α → Bool) :
    (l.take i).filter p = (l.filter p).take ((l.take i).countP p) := by
  have hsplit : l.filter p = (l.take i).filter p ++ (l.drop i).filter p := by rw [← filter_append, List.take_append_drop]
  rw [hsplit, countP_eq_length_filter, take_left']
  rfl

theorem Pair.flow {p q : Process} (hm : Matched p q) {i j : Nat} (h : Pair p q i j) :
    ∃ a b f, p.ops[i]? = some a ∧ q.ops[j]? = some b ∧ a.isRecv = false ∧ b.isRecv = true ∧
      a.flow (p.rank a.comm) = f ∧ b.flow (q.rank b.comm) = f := by
  obtain ⟨c, a, b, ha, hsend, hb, hrecv, hcount⟩ := h
  have hshape : a.shape = b.shape := by
    have h₁ := congrArg (fun l => l[(p.ops.take i).countP (Op.sendsTo c (q.rank c))]?) (hm c)
    simp only [getElem?_map] at h₁
    rw [filter_getElem? ha hsend, hcount, filter_getElem? hb hrecv] at h₁
    exact some.inj h₁
  obtain ⟨hsize, hdtype⟩ := Prod.mk.inj hshape
  obtain ⟨hac, har, hap⟩ := of_decide_eq_true hsend
  obtain ⟨hbc, hbr, hbp⟩ := of_decide_eq_true hrecv
  refine ⟨a, b, _, ha, hb, har, hbr, rfl, ?_⟩
  rw [Op.flow, Op.flow, har, hbr, hac, hbc, hap, hbp, hsize, hdtype]
  rfl

theorem Flow.identity_agree {n n' : Nat} {a b : Identity} (ha : f.identity false n = some a)
    (hb : f.identity true n' = some b) : a.own = b.peer ∧ a.peer = b.own ↔ n ≡ n' [MOD 2 ^ 32] := by
  have hkeys : ∃ send recv, makeKey f.sendKey = some send ∧ makeKey f.recvKey = some recv := by
    obtain ⟨send, hsend, ha⟩ := bind_eq_some_iff.1 ha
    obtain ⟨recv, hrecv, -⟩ := bind_eq_some_iff.1 ha
    exact ⟨send, recv, hsend, hrecv⟩
  obtain ⟨send, recv, hsend, hrecv⟩ := hkeys
  rw [identity_eq hsend hrecv, if_neg Bool.false_ne_true, some.injEq] at ha
  rw [identity_eq hsend hrecv, if_pos rfl, some.injEq] at hb
  subst ha hb
  have hcounter : BitVec.ofNat 32 (n + 1) = BitVec.ofNat 32 (n' + 1) ↔ n ≡ n' [MOD 2 ^ 32] := by
    rw [← BitVec.toNat_inj, BitVec.toNat_ofNat, BitVec.toNat_ofNat]
    exact ⟨fun h => Nat.ModEq.add_right_cancel' 1 h, fun h => h.add_right 1⟩
  rw [← hcounter]
  constructor
  · intro h
    have hhash := congrArg SlotInfo.opHash h.1
    have hsign := congrArg BitVec.toInt ((BitVec.add_right_inj send).1 hhash)
    rw [BitVec.toInt_signExtend_of_le (by omega), BitVec.toInt_signExtend_of_le (by omega)] at hsign
    exact BitVec.toInt_inj.1 hsign
  · intro h
    rw [h]
    exact ⟨rfl, rfl⟩

theorem agree_iff {p q : Process} (hm : Matched p q) : Agree p q ↔ p.InRange ∧ q.InRange ∧ SameCounts p q := by
  have hrange : ∀ p : Process, p.prepare.isSome ↔ p.InRange := by
    intro p
    rw [Process.prepare, prepareAll_isSome, Process.InRange, Process.flows, List.forall_mem_map]
  have hpair : ∀ {idsP idsQ}, p.prepare = some idsP → q.prepare = some idsQ → ∀ i j, Pair p q i j →
      ((∃ a b, idsP[i]? = some a ∧ idsQ[j]? = some b ∧ a.own = b.peer ∧ a.peer = b.own) ↔
        ∀ f, p.flows[i]? = some f → (p.flows.take i).count f ≡ (q.flows.take j).count f [MOD 2 ^ 32]) := by
    intro idsP idsQ hidsP hidsQ i j h
    obtain ⟨opP, opQ, f, hopP, hopQ, hsend, hrecv, hfP, hfQ⟩ := h.flow hm
    obtain ⟨a, ha, hida⟩ := prepare_identity hidsP hopP
    obtain ⟨b, hb, hidb⟩ := prepare_identity hidsQ hopQ
    rw [hsend, hfP] at hida
    rw [hrecv, hfQ] at hidb
    have hf : p.flows[i]? = some f := by rw [Process.flows, getElem?_map, hopP, map_some, hfP]
    rw [ha, hb, hf]
    simp only [some.injEq, exists_and_left, exists_eq_left', forall_eq']
    exact Flow.identity_agree hida hidb
  constructor
  · rintro ⟨idsP, idsQ, hidsP, hidsQ, h⟩
    refine ⟨(hrange p).1 (by simp [hidsP]), (hrange q).1 (by simp [hidsQ]), ?_⟩
    exact fun i j hij => (hpair hidsP hidsQ i j hij).1 (h i j hij)
  · rintro ⟨hp, hq, h⟩
    obtain ⟨idsP, hidsP⟩ := isSome_iff_exists.1 ((hrange p).2 hp)
    obtain ⟨idsQ, hidsQ⟩ := isSome_iff_exists.1 ((hrange q).2 hq)
    exact ⟨idsP, idsQ, hidsP, hidsQ, fun i j hij => (hpair hidsP hidsQ i j hij).2 (h i j hij)⟩

/-- Both ends of every transfer between two processes have one identity if and only if the assertions hold and both processes
have counted equally many operations of its flow before it. -/
theorem identities_agree_iff {p q : Process} (hpq : Matched p q) (hqp : Matched q p) :
    Agree p q ∧ Agree q p ↔ p.InRange ∧ q.InRange ∧ SameCounts p q ∧ SameCounts q p := by
  rw [agree_iff hpq, agree_iff hqp]
  tauto

/-! ## One communicator -/

/-- Two processes that share one communicator. -/
structure OneComm (p q : Process) (c : Nat) : Prop where
  left : ∀ op ∈ p.ops, op.comm = c
  right : ∀ op ∈ q.ops, op.comm = c
  ne : p.rank c ≠ q.rank c

namespace OneComm
variable {p q : Process} {c : Nat}

theorem symm (h : OneComm p q c) : OneComm q p c := ⟨h.right, h.left, h.ne.symm⟩

theorem count_left (h : OneComm p q c) (i size dtype : Nat) :
    (p.flows.take i).count ⟨p.rank c, q.rank c, size, dtype⟩ =
      (((p.ops.take i).filter (Op.sendsTo c (q.rank c))).map Op.shape).count (size, dtype) := by
  rw [Process.flows, ← map_take, count, count, countP_map, countP_map, countP_filter]
  refine countP_congr fun op hop => ?_
  have hc := h.left op (mem_of_mem_take hop)
  have hne := h.ne
  cases hr : op.isRecv <;> simp [Op.flow, Op.sendsTo, Op.shape, hr, hc] <;> grind

theorem count_right (h : OneComm p q c) (j size dtype : Nat) :
    (q.flows.take j).count ⟨p.rank c, q.rank c, size, dtype⟩ =
      (((q.ops.take j).filter (Op.recvsFrom c (p.rank c))).map Op.shape).count (size, dtype) := by
  rw [Process.flows, ← map_take, count, count, countP_map, countP_map, countP_filter]
  refine countP_congr fun op hop => ?_
  have hc := h.right op (mem_of_mem_take hop)
  have hne := h.ne
  cases hr : op.isRecv <;> simp [Op.flow, Op.recvsFrom, Op.shape, hr, hc] <;> grind

theorem sameCounts (h : OneComm p q c) (hm : Matched p q) : SameCounts p q := by
  rintro i j ⟨c', a, b, ha, hsend, hb, hrecv, hcount⟩ f hf
  obtain ⟨hac, har, hap⟩ := of_decide_eq_true hsend
  obtain rfl : c' = c := hac.symm.trans (h.left a (mem_of_getElem? ha))
  obtain rfl : f = ⟨p.rank c', q.rank c', a.size, a.dtype⟩ := by
    rw [Process.flows, getElem?_map, ha, map_some, some.injEq] at hf
    rw [← hf, Op.flow, har, hac, hap]
    rfl
  rw [h.count_left, h.count_right, filter_take, filter_take, map_take, map_take, hm c', hcount]

end OneComm

/-- A process of rank `r` on every communicator. -/
def Process.of (r : Nat) (ops : List Op) : Process := ⟨fun _ => r, ops⟩

/-- One send and its receive. -/
theorem identities_agree_single :
    Agree (.of 0 [⟨0, false, 1, 64, 0⟩]) (.of 1 [⟨0, true, 0, 64, 0⟩]) ∧
      Agree (.of 1 [⟨0, true, 0, 64, 0⟩]) (.of 0 [⟨0, false, 1, 64, 0⟩]) := by
  have hpq : Matched (.of 0 [⟨0, false, 1, 64, 0⟩]) (.of 1 [⟨0, true, 0, 64, 0⟩]) := by
    intro c
    by_cases hc : 0 = c <;> simp [Process.of, Op.sendsTo, Op.recvsFrom, Op.shape, hc]
  have hqp : Matched (.of 1 [⟨0, true, 0, 64, 0⟩]) (.of 0 [⟨0, false, 1, 64, 0⟩]) := by
    intro c
    by_cases hc : 0 = c <;> simp [Process.of, Op.sendsTo, Op.recvsFrom, hc]
  have hone : OneComm (.of 0 [⟨0, false, 1, 64, 0⟩]) (.of 1 [⟨0, true, 0, 64, 0⟩]) 0 :=
    ⟨by simp [Process.of], by simp [Process.of], by simp [Process.of]⟩
  refine (identities_agree_iff hpq hqp).2 ⟨?_, ?_, hone.sameCounts hpq, hone.symm.sameCounts hqp⟩
  · rw [Process.InRange]
    decide
  · rw [Process.InRange]
    decide

def senderOnTwo : Process := .of 0 [⟨0, false, 1, 64, 0⟩, ⟨1, false, 1, 64, 0⟩]

def receiverOnTwo : Process := .of 1 [⟨1, true, 0, 64, 0⟩, ⟨0, true, 0, 64, 0⟩]

/-- On two communicators the order of the operations decides: the first send and the matching receive have other identities. -/
theorem identities_agree_counterexample : Matched senderOnTwo receiverOnTwo ∧ Matched receiverOnTwo senderOnTwo ∧
    ¬ Agree senderOnTwo receiverOnTwo := by
  have hm : ∀ c : Nat, (0 = c ∨ 1 = c) ∨ (0 ≠ c ∧ 1 ≠ c) := by omega
  refine ⟨?_, ?_, ?_⟩
  · intro c
    rcases hm c with (rfl | rfl) | ⟨h0, h1⟩
    · rfl
    · rfl
    · simp [senderOnTwo, receiverOnTwo, Process.of, Op.sendsTo, Op.recvsFrom, h0, h1]
  · intro c
    rcases hm c with (rfl | rfl) | ⟨h0, h1⟩
    · rfl
    · rfl
    · simp [senderOnTwo, receiverOnTwo, Process.of, Op.sendsTo, Op.recvsFrom, h0, h1]
  · rintro ⟨idsP, idsQ, hidsP, hidsQ, h⟩
    obtain ⟨a, b, ha, hb, hown, -⟩ := h 0 1 ⟨0, _, _, rfl, rfl, rfl, rfl, rfl⟩
    have hne : (senderOnTwo.prepare.bind (·[0]?)).map Identity.own ≠
        (receiverOnTwo.prepare.bind (·[1]?)).map Identity.peer := by decide +kernel
    rw [hidsP, hidsQ, bind_some, bind_some, ha, hb, map_some, map_some, hown] at hne
    exact hne rfl

/-! ## Uniqueness of the hashes -/

/-- Calls of `setP2pSlotInfo`, one after the other: what each is given. -/
def setAll : OpHashMap → List (KeyArgs × Bool) → Option (List SlotInfo)
  | _, [] => some []
  | m, c :: cs => do
    let (m, info) ← setP2pSlotInfo m c.1 c.2
    return info :: (← setAll m cs)

/-- No assertion fails, no hash marks a free slot, and no two calls of one direction get the same hash. -/
def Unique (cs : List (KeyArgs × Bool)) : Prop :=
  ∃ infos, setAll (fun _ => none) cs = some infos ∧ (∀ info ∈ infos, info.opHash ≠ -1) ∧
    ∀ (i j : Nat) (c c' : KeyArgs × Bool) (info info' : SlotInfo), i < j → cs[i]? = some c → cs[j]? = some c' → c.2 = c'.2 → infos[i]? = some info →
      infos[j]? = some info' → info.opHash ≠ info'.opHash

/-- The calls meet the assertions and do not overflow a counter, and no counter reaches the key of another tuple. -/
structure Apart (cs : List (KeyArgs × Bool)) : Prop where
  inRange : ∀ c ∈ cs, c.1.InRange
  counter : ∀ c ∈ cs, cs.count c < 2 ^ 31
  apart : ∀ c ∈ cs, ∀ c' ∈ cs, c.2 = c'.2 → ∀ key ∈ makeKey c.1, ∀ key' ∈ makeKey c'.1, key.toNat < key'.toNat →
    key.toNat + cs.count c ≤ key'.toNat

theorem setAll_spec {cs : List (KeyArgs × Bool)} {n : KeyArgs × Bool → Nat} (hr : ∀ c ∈ cs, c.1.InRange)
    (hm : ∀ k isRecv key, makeKey k = some key → m.counter key isRecv = BitVec.ofNat 32 (n (k, isRecv))) :
    ∃ infos, setAll m cs = some infos ∧ infos.length = cs.length ∧ ∀ i c info, cs[i]? = some c → infos[i]? = some info →
      ∃ key, makeKey c.1 = some key ∧
        info.opHash = key + (BitVec.ofNat 32 (n c + (cs.take i).count c + 1)).signExtend 64 := by
  induction cs generalizing m n with
  | nil => exact ⟨[], rfl, rfl, fun i c info h => by simp at h⟩
  | cons c₀ cs ih =>
    obtain ⟨hr₀, hr⟩ := forall_mem_cons.1 hr
    have hsome : (setP2pSlotInfo m c₀.1 c₀.2).isSome := setP2pSlotInfo_isSome.2 hr₀
    obtain ⟨⟨m', info₀⟩, hset⟩ := isSome_iff_exists.1 hsome
    obtain ⟨key₀, hkey₀, hinfo₀, hcounter⟩ := setP2pSlotInfo_eq_some hset
    have hnext : m.counter key₀ c₀.2 + 1 = BitVec.ofNat 32 (n c₀ + 1) := by
      rw [hm _ _ _ hkey₀, BitVec.ofNat_add]
      rfl
    obtain ⟨infos, hall, hlen, hspec⟩ := ih (m := m') (n := update n c₀ (n c₀ + 1)) hr fun k isRecv key hkey => by
      rw [hcounter]
      by_cases hc : (k, isRecv) = c₀
      · subst hc
        rw [if_pos ⟨some.inj (hkey.symm.trans hkey₀), rfl⟩, hnext, update_self]
      · rw [update_of_ne hc, hm _ _ _ hkey, if_neg]
        rintro ⟨rfl, rfl⟩
        exact hc (Prod.ext (makeKey_inj hkey hkey₀) rfl)
    refine ⟨info₀ :: infos, by simp [setAll, hset, hall], by simp [hlen], fun i c info hi hinfo => ?_⟩
    cases i with
    | zero =>
      obtain rfl : c₀ = c := by simpa using hi
      obtain rfl : info₀ = info := by simpa using hinfo
      exact ⟨key₀, hkey₀, by rw [hinfo₀, slotInfo, hnext]; simp⟩
    | succ i =>
      obtain ⟨key, hkey, hhash⟩ := hspec i c info (by simpa using hi) (by simpa using hinfo)
      refine ⟨key, hkey, hhash.trans ?_⟩
      congr 3
      by_cases hc : c₀ = c
      · subst hc
        simp
        omega
      · rw [update_of_ne (Ne.symm hc)]
        simp [hc]

theorem hash_toNat (h : makeKey k = some key) {n : Nat} (hn : n < 2 ^ 31) :
    (key + (BitVec.ofNat 32 n).signExtend 64).toNat = key.toNat + n ∧ key.toNat + n < 2 ^ 64 - 1 := by
  obtain ⟨⟨hrank, hpeer, hsize, hdtype, hlow, hhigh⟩, hkey⟩ := makeKey_toNat h
  have hsmall : key.toNat + n < 2 ^ 64 - 1 := by
    rw [hkey, KeyArgs.deltaEnc]
    omega
  refine ⟨?_, hsmall⟩
  have hext : ((BitVec.ofNat 32 n).signExtend 64).toNat = n := by
    rw [BitVec.toNat_signExtend, BitVec.toNat_setWidth]
    have hmsb : (BitVec.ofNat 32 n).msb = false := by
      rw [BitVec.msb_eq_false_iff_two_mul_lt, BitVec.toNat_ofNat]
      omega
    rw [hmsb, BitVec.toNat_ofNat]
    simp
    omega
  rw [BitVec.toNat_add, hext, Nat.mod_eq_of_lt (by omega)]

theorem hashes_unique {cs : List (KeyArgs × Bool)} (h : Apart cs) : Unique cs := by
  obtain ⟨infos, hall, hlen, hspec⟩ := setAll_spec (m := fun _ => none) (n := fun _ => 0) h.inRange fun _ _ _ _ => rfl
  have hhash : ∀ i c info, cs[i]? = some c → infos[i]? = some info → ∃ key, makeKey c.1 = some key ∧
      info.opHash.toNat = key.toNat + (cs.take i).count c + 1 ∧ info.opHash.toNat < 2 ^ 64 - 1 ∧
      (cs.take i).count c < cs.count c := by
    intro i c info hi hinfo
    obtain ⟨key, hkey, heq⟩ := hspec i c info hi hinfo
    have hlt : (cs.take i).count c < cs.count c := by
      have hsplit : cs = cs.take i ++ c :: cs.drop (i + 1) := by
        rw [← List.getElem?_eq_some_iff.1 hi |>.2, List.getElem_cons_drop, List.take_append_drop]
      conv_rhs => rw [hsplit]
      rw [count_append, count_cons_self]
      omega
    have hcount := h.counter c (mem_of_getElem? hi)
    obtain ⟨hnat, hsmall⟩ := hash_toNat hkey (n := (cs.take i).count c + 1) (by omega)
    rw [zero_add] at heq
    rw [heq]
    exact ⟨key, hkey, hnat, by omega, hlt⟩
  refine ⟨infos, hall, fun info hmem => ?_, fun i j c c' info info' hij hi hj hdir hinfo hinfo' heq => ?_⟩
  · obtain ⟨i, hi, rfl⟩ := getElem_of_mem hmem
    obtain ⟨-, -, -, hsmall, -⟩ := hhash i cs[i] infos[i] (getElem?_eq_getElem (hlen ▸ hi)) (getElem?_eq_getElem hi)
    intro hfree
    rw [hfree] at hsmall
    exact absurd hsmall (by decide)
  · obtain ⟨key, hkey, hnat, -, hlt⟩ := hhash i c info hi hinfo
    obtain ⟨key', hkey', hnat', -, hlt'⟩ := hhash j c' info' hj hinfo'
    have hmem := mem_of_getElem? hi
    have hmem' := mem_of_getElem? hj
    rw [heq] at hnat
    obtain hlow | hsame | hhigh := lt_trichotomy key.toNat key'.toNat
    · have := h.apart c hmem c' hmem' hdir key hkey key' hkey' hlow
      omega
    · -- the same tuple at a later time
      obtain rfl := BitVec.eq_of_toNat_eq hsame
      obtain rfl : c = c' := Prod.ext (makeKey_inj hkey hkey') hdir
      have hmono : (cs.take (i + 1)).count c ≤ (cs.take j).count c := ((take_prefix_take_left hij).sublist).count_le c
      rw [take_add_one, hi, count_append] at hmono
      simp at hmono
      omega
    · have := h.apart c' hmem' c hmem hdir.symm key' hkey' key hkey hhigh
      omega

/-- Two sends of one size and one of another. -/
theorem hashes_unique_pair : Unique [(⟨0, 1, 64, 0⟩, false), (⟨0, 1, 64, 0⟩, false), (⟨0, 1, 128, 0⟩, false)] := by
  refine hashes_unique ⟨by decide +kernel, by decide +kernel, fun c hc c' hc' _ key hkey key' hkey' hlt => ?_⟩
  rw [(makeKey_toNat hkey).2, (makeKey_toNat hkey').2] at *
  simp only [mem_cons, not_mem_nil, or_false] at hc hc'
  obtain rfl | rfl | rfl := hc <;> obtain rfl | rfl | rfl := hc' <;> revert hlt <;> decide +kernel

/-- The 17th send of a tuple has the hash of the first send with the next data type; and the assertions fail for ranks of a node
that are more than 15 apart. -/
theorem hashes_collide : ¬ Unique (replicate 17 (⟨0, 1, 64, 0⟩, false) ++ [(⟨0, 1, 64, 1⟩, false)]) ∧
    ¬ Unique [(⟨0, 16, 64, 0⟩, false)] := by
  constructor
  · rintro ⟨infos, hall, -, hne⟩
    have hsame : ∀ infos ∈ setAll (fun _ => none) (replicate 17 (⟨0, 1, 64, 0⟩, false) ++ [(⟨0, 1, 64, 1⟩, false)]),
        ∃ info ∈ infos[16]?, ∃ info' ∈ infos[17]?, info.opHash = info'.opHash := by decide +kernel
    obtain ⟨info, hinfo, info', hinfo', heq⟩ := hsame infos hall
    exact hne 16 17 _ _ info info' (by decide) rfl rfl rfl hinfo hinfo' heq
  · rintro ⟨infos, hall, -⟩
    exact absurd hall (show setAll (fun _ => none) [(⟨0, 16, 64, 0⟩, false)] ≠ some infos by decide +kernel +revert)

end FlagCX.P2pShm
