import Mathlib.Tactic.Ring

/-!
# Stripes in exact `int` arithmetic (`flagcxIbucMultiSend`)

The loop over the lanes of a send, where an `int` operation that overflows ends it.

* `multiSendLanes` : the piece of the message that each lane writes.
* `Tiles`          : what the pieces are together.
* `multiSend_tiles_iff` : they tile the message exactly when the last offset and the sums of both `DIVUP`s are `int`s.
-/

namespace FlagCX.Ib.Tiling
open List

/-! ## The loop -/

/-- The result of an operation on `int`; C++ does not define one that overflows. -/
def asInt (x : Int) : Option Int := if -2 ^ 31 ≤ x ∧ x < 2 ^ 31 then some x else none

def divUp (x y : Int) : Option Int := do
  let sum ← asInt (x + y)
  let top ← asInt (sum - 1)
  asInt (top.tdiv y)

/-- `chunkSize`; `align` is 128. -/
def chunkSize (size nqps : Int) : Option Int := do
  let perLane ← divUp size nqps
  let blocks ← divUp perLane 128
  asInt (blocks * 128)

/-- What a lane writes. Without a scatter entry it writes nothing. -/
structure Piece where
  addr : Int
  remoteAddr : Int
  length : Int

def Piece.Has (p : Piece) (x : Int) : Prop := p.addr ≤ x ∧ x < p.addr + p.length

/-- `send.offset`, `sges[r].addr` and `wrs[r].wr.rdma.remote_addr` of a request. -/
structure Cursor where
  offset : Int
  addr : Int
  remoteAddr : Int

def Cursor.piece (c : Cursor) (length : Int) : Piece := ⟨c.addr, c.remoteAddr, if length ≤ 0 then 0 else length⟩

def Cursor.advance (c : Cursor) (offset chunk : Int) : Cursor := ⟨offset, c.addr + chunk, c.remoteAddr + chunk⟩

/-- The rounds of `n` lanes for one request. -/
def multiSendLanes (size nqps : Int) : Nat → Cursor → Option (List Piece)
  | 0, _ => some []
  | n + 1, c => do
    let chunk ← chunkSize size nqps
    let left ← asInt (size - c.offset)
    let offset ← asInt (c.offset + chunk)
    let rest ← multiSendLanes size nqps n (c.advance offset chunk)
    some (c.piece (min left chunk) :: rest)

/-! ## Tilings -/

/-- The pieces of a message at `addr` for `remoteAddr`, one for each lane. -/
structure Tiles (size : Nat) (addr remoteAddr : Int) (ps : List Piece) : Prop where
  disjoint : ps.Pairwise fun p q => ∀ x, ¬ (p.Has x ∧ q.Has x)
  union : ∀ x, (∃ p ∈ ps, p.Has x) ↔ addr ≤ x ∧ x < addr + size
  together : ∀ p ∈ ps, p.addr - addr = p.remoteAddr - remoteAddr

/-- The bytes of a lane, rounded up to whole blocks. -/
def lane (size nqps : Nat) : Nat := ((size + nqps - 1) / nqps + 127) / 128 * 128

/-- The lanes end below `2^31`, and so do the sums that are divided. -/
def Fits (size nqps : Nat) : Prop :=
  size + nqps < 2 ^ 31 ∧ (size + nqps - 1) / nqps + 128 < 2 ^ 31 ∧ nqps * lane size nqps < 2 ^ 31

instance (size nqps : Nat) : Decidable (Fits size nqps) := inferInstanceAs (Decidable (_ ∧ _))

variable {size nqps c n o : Nat} {addr remoteAddr : Int} {ps : List Piece}

theorem asInt_eq_some {x y : Int} : asInt x = some y ↔ x = y ∧ -2 ^ 31 ≤ x ∧ x < 2 ^ 31 := by
  unfold asInt
  split_ifs with h
  · rw [Option.some.injEq]
    exact ⟨fun he => ⟨he, h⟩, And.left⟩
  · exact ⟨nofun, fun hx => absurd hx.2 h⟩

theorem divUp_eq_some {x y : Nat} (hy : 0 < y) {z : Int} :
    divUp x y = some z ↔ x + y < 2 ^ 31 ∧ z = ((x + y - 1) / y : Nat) := by
  have hsub : (x : Int) + y - 1 = (x + y - 1 : Nat) := by omega
  have htop : ((x : Int) + y - 1).tdiv y = ((x + y - 1) / y : Nat) := by rw [hsub, Int.ofNat_tdiv]
  have hle := Nat.div_le_self (x + y - 1) y
  generalize (x + y - 1) / y = q at htop hle
  simp only [divUp, Option.bind_eq_bind, Option.bind_eq_some_iff, asInt_eq_some]
  constructor
  · rintro ⟨_, ⟨rfl, -, h⟩, _, ⟨rfl, -, -⟩, rfl, -, -⟩
    exact ⟨by omega, htop⟩
  · rintro ⟨h, rfl⟩
    exact ⟨_, ⟨rfl, by omega, by omega⟩, _, ⟨rfl, by omega, by omega⟩, htop, by omega, by omega⟩

theorem chunkSize_eq_some (hn : 0 < nqps) {z : Int} : chunkSize size nqps = some z ↔
    size + nqps < 2 ^ 31 ∧ (size + nqps - 1) / nqps + 128 < 2 ^ 31 ∧ lane size nqps < 2 ^ 31 ∧ z = lane size nqps := by
  have h128 : ∀ {x : Nat} {z : Int}, divUp x 128 = some z ↔ x + 128 < 2 ^ 31 ∧ z = ((x + 128 - 1) / 128 : Nat) :=
    divUp_eq_some (y := 128) (by decide)
  simp only [chunkSize, Option.bind_eq_bind, Option.bind_eq_some_iff, asInt_eq_some, divUp_eq_some hn]
  unfold lane
  constructor
  · rintro ⟨_, ⟨h1, rfl⟩, _, hblocks, rfl, -, h3⟩
    obtain ⟨h2, rfl⟩ := h128.1 hblocks
    exact ⟨h1, h2, by omega, by omega⟩
  · rintro ⟨h1, h2, h3, rfl⟩
    exact ⟨_, ⟨h1, rfl⟩, _, h128.2 ⟨h2, rfl⟩, by omega, by omega, by omega⟩

theorem size_le (hn : 0 < nqps) : size ≤ nqps * lane size nqps := by
  have hdiv := Nat.div_add_mod (size + nqps - 1) nqps
  have hmod := Nat.mod_lt (size + nqps - 1) hn
  have hle : (size + nqps - 1) / nqps ≤ lane size nqps := by
    unfold lane
    omega
  have hmul := Nat.mul_le_mul_left nqps hle
  omega

/-! ## Runs of the loop -/

theorem lanes_tile (addr remoteAddr : Int) (hchunk : chunkSize size nqps = some (c : Int)) (hsize : size < 2 ^ 31)
    (hfit : o + n * c < 2 ^ 31) :
    ∃ ps, multiSendLanes size nqps n ⟨o, addr + o, remoteAddr + o⟩ = some ps ∧
      (ps.Pairwise fun p q => ∀ x, ¬ (p.Has x ∧ q.Has x)) ∧
      (∀ x, (∃ p ∈ ps, p.Has x) ↔ addr + o ≤ x ∧ x < addr + size ∧ x < addr + o + n * c) ∧
      ∀ p ∈ ps, p.addr - addr = p.remoteAddr - remoteAddr := by
  induction n generalizing o with
  | zero => exact ⟨[], rfl, .nil, fun x => by simp; omega, nofun⟩
  | succ n ih =>
    rw [Nat.succ_mul] at hfit
    obtain ⟨ps, hps, hdis, hunion, htog⟩ := ih (o := o + c) (by omega)
    have hcast : ((n : Int) + 1) * c = n * c + c := by ring
    obtain ⟨length, hlength⟩ : ∃ l : Int, l = if min ((size : Int) - o) c ≤ 0 then 0 else min ((size : Int) - o) c := ⟨_, rfl⟩
    have hhas : ∀ x, Piece.Has ⟨addr + o, remoteAddr + o, length⟩ x ↔ addr + o ≤ x ∧ x < addr + size ∧ x < addr + o + c := by
      intro x
      show addr + o ≤ x ∧ x < addr + o + length ↔ _
      split_ifs at hlength <;> omega
    refine ⟨⟨addr + o, remoteAddr + o, length⟩ :: ps, ?_, .cons (fun q hq x => ?_) hdis, fun x => ?_, ?_⟩
    · have hleft : asInt ((size : Int) - o) = some ((size : Int) - o) := asInt_eq_some.2 ⟨rfl, by omega, by omega⟩
      have hoffset : asInt ((o : Int) + c) = some ((o : Int) + c) := asInt_eq_some.2 ⟨rfl, by omega, by omega⟩
      rw [Int.natCast_add, ← Int.add_assoc, ← Int.add_assoc] at hps
      rw [multiSendLanes, hlength]
      exact Option.bind_eq_some_iff.2 ⟨_, hchunk, Option.bind_eq_some_iff.2 ⟨_, hleft,
        Option.bind_eq_some_iff.2 ⟨_, hoffset, Option.bind_eq_some_iff.2 ⟨_, hps, rfl⟩⟩⟩⟩
    · rintro ⟨hp, hq'⟩
      have hlo := ((hunion x).1 ⟨q, hq, hq'⟩).1
      have hhi := ((hhas x).1 hp).2.2
      omega
    · simp only [mem_cons, exists_eq_or_imp, hunion, hhas, Nat.cast_succ, hcast]
      omega
    · simp only [mem_cons, forall_eq_or_imp]
      exact ⟨by omega, htog⟩

theorem lanes_fit (hchunk : chunkSize size nqps = some (c : Int)) (hn : 0 < n)
    (h : multiSendLanes size nqps n ⟨o, addr, remoteAddr⟩ = some ps) : o + n * c < 2 ^ 31 := by
  induction n generalizing o addr remoteAddr ps with
  | zero => exact absurd hn (lt_irrefl 0)
  | succ n ih =>
    rw [multiSendLanes] at h
    obtain ⟨_, hc, h⟩ := Option.bind_eq_some_iff.1 h
    obtain rfl := Option.some.inj (hchunk.symm.trans hc)
    obtain ⟨_, -, h⟩ := Option.bind_eq_some_iff.1 h
    obtain ⟨_, ho, h⟩ := Option.bind_eq_some_iff.1 h
    obtain ⟨rfl, -, hlt⟩ : (o : Int) + c = _ ∧ -2 ^ 31 ≤ (o : Int) + c ∧ (o : Int) + c < 2 ^ 31 := asInt_eq_some.1 ho
    obtain ⟨_, hrest, -⟩ := Option.bind_eq_some_iff.1 h
    rw [Nat.succ_mul]
    rcases eq_zero_or_pos n with rfl | hpos
    · omega
    · have hlast := ih (o := o + c) hpos hrest
      omega

/-- **The lanes tile the message** when every `int` fits, and only then. -/
theorem multiSend_tiles_iff (size nqps : Nat) (addr remoteAddr : Int) (hnqps : 1 ≤ nqps) :
    (∃ ps, multiSendLanes size nqps nqps ⟨0, addr, remoteAddr⟩ = some ps ∧ Tiles size addr remoteAddr ps) ↔
      Fits size nqps := by
  constructor
  · rintro ⟨ps, h, -⟩
    obtain ⟨z, hz⟩ : ∃ z, chunkSize size nqps = some z := by
      obtain ⟨n, rfl⟩ : ∃ n, nqps = n + 1 := ⟨nqps - 1, by omega⟩
      rw [multiSendLanes, Option.bind_eq_bind, Option.bind_eq_some_iff] at h
      exact h.imp fun _ h => h.1
    obtain ⟨h1, h2, -, rfl⟩ := (chunkSize_eq_some hnqps).1 hz
    have hfit := lanes_fit (o := 0) hz hnqps h
    exact ⟨h1, h2, by omega⟩
  · rintro ⟨h1, h2, h3⟩
    have hle := Nat.le_mul_of_pos_left (lane size nqps) hnqps
    have hchunk := (chunkSize_eq_some hnqps).2 ⟨h1, h2, by omega, rfl⟩
    obtain ⟨ps, hps, hdis, hunion, htog⟩ := lanes_tile (n := nqps) (o := 0) addr remoteAddr hchunk (by omega) (by omega)
    rw [Int.natCast_zero, Int.add_zero, Int.add_zero] at hps
    refine ⟨ps, hps, hdis, fun x => (hunion x).trans ?_, htog⟩
    have hend : (size : Int) ≤ nqps * lane size nqps := by exact_mod_cast size_le hnqps
    omega

/-- 300 bytes over two lanes. -/
theorem multiSend_tiles_pair : ∃ ps, multiSendLanes 300 2 2 ⟨0, 0, 0⟩ = some ps ∧ Tiles 300 0 0 ps :=
  (multiSend_tiles_iff 300 2 0 0 (by decide)).2 (by decide)

/-- The largest size over one lane: `DIVUP(size, 1)` overflows. -/
theorem multiSend_overflows : ¬ ∃ ps, multiSendLanes 2147483647 1 1 ⟨0, 0, 0⟩ = some ps ∧ Tiles 2147483647 0 0 ps := by
  rintro ⟨ps, h, -⟩
  cases h

end FlagCX.Ib.Tiling
