import FlagCX.Bootstrap.Sockets

/-!
# Elements of buffers and their reduction (`sum`, `max`, `min` of `utils.h`)

* `load`, `store`        : an element as the bits of its bytes, the first byte lowest; `load_store`.
* `reduceElement`        : the operation on two elements, `GENERATE_ALL_TYPES` for each operator. What `float` and `double`
  compute is a parameter; `char` is signed, as on the hosts the library is built for, and sums of integers wrap.
-/

namespace FlagCX.Bootstrap
open Lib List Option

/-! ## Bytes and bits -/

def ofBytes : List UInt8 → Nat
  | [] => 0
  | b :: bytes => b.toNat + 256 * ofBytes bytes

/-- The lowest `n` bytes of a number. -/
def toBytes : Nat → Nat → List UInt8
  | 0, _ => []
  | n + 1, v => UInt8.ofNat v :: toBytes n (v / 256)

@[simp] theorem length_toBytes (n v : Nat) : (toBytes n v).length = n := by
  induction n generalizing v with
  | zero => rfl
  | succ n ih => rw [toBytes, length_cons, ih]

theorem ofBytes_toBytes {n v : Nat} (h : v < 2 ^ (8 * n)) : ofBytes (toBytes n v) = v := by
  induction n generalizing v with
  | zero =>
    rw [Nat.mul_zero, Nat.pow_zero, Nat.lt_one_iff] at h
    rw [h]
    rfl
  | succ n ih =>
    have hdiv : v / 256 < 2 ^ (8 * n) := by
      rw [Nat.div_lt_iff_lt_mul (by decide)]
      rwa [Nat.mul_succ, Nat.pow_add] at h
    rw [toBytes, ofBytes, ih hdiv, UInt8.toNat_ofNat']
    exact Nat.mod_add_div v 256

section Elements
variable {n : Nat}

/-- The element of `n` bytes at an address. -/
def load (n : Nat) (b : Buffer) (addr : Nat) : BitVec (8 * n) := BitVec.ofNat _ (ofBytes (b.read addr n))

def store (b : Buffer) (addr : Nat) (v : BitVec (8 * n)) : Buffer := b.write addr (toBytes n v.toNat)

theorem load_store (b : Buffer) (addr : Nat) (v : BitVec (8 * n)) : load n (store b addr v) addr = v := by
  have hread : (b.write addr (toBytes n v.toNat)).read addr (toBytes n v.toNat).length = toBytes n v.toNat := Buffer.read_write
  rw [length_toBytes] at hread
  rw [load, store, hread, ofBytes_toBytes v.isLt, BitVec.ofNat_toNat, BitVec.setWidth_eq]

variable {b : Buffer} {addr addr' : Nat}

theorem load_store_apart {v : BitVec (8 * n)} (h : Buffer.Apart addr n addr' n) :
    load n (store b addr' v) addr = load n b addr := by
  rw [load, store, Buffer.read_write_apart (by rwa [length_toBytes]), load]

theorem load_congr {b' : Buffer} (h : ∀ k < n, b (addr + k) = b' (addr' + k)) : load n b addr = load n b' addr' := by
  rw [load, load, Buffer.read_eq.2 h]

theorem load_of_read {b' : Buffer} {size k : Nat} (hread : b.read addr size = b'.read addr' size)
    (hk : k + n ≤ size) : load n b (addr + k) = load n b' (addr' + k) := by
  refine load_congr fun j hj => ?_
  have := Buffer.read_eq.1 hread (k + j) (by omega)
  rwa [← Nat.add_assoc, ← Nat.add_assoc] at this

end Elements

/-! ## Operators -/

inductive RedOp where
  | sum
  | prod
  | max
  | min
  | avg
  deriving DecidableEq, Repr

/-- What the compiler's `+`, `std::max` and `std::min` do with `float` and `double`, on their bits. -/
structure FloatOps where
  sum : (w : Nat) → BitVec w → BitVec w → BitVec w
  max : (w : Nat) → BitVec w → BitVec w → BitVec w
  min : (w : Nat) → BitVec w → BitVec w → BitVec w

/-- `std::max` for an order. -/
def maxBy {w : Nat} (less : BitVec w → BitVec w → Bool) (a b : BitVec w) : BitVec w := if less a b then b else a

/-- `std::min` for an order. -/
def minBy {w : Nat} (less : BitVec w → BitVec w → Bool) (a b : BitVec w) : BitVec w := if less b a then b else a

def DataType.signed : DataType → Bool
  | .int8 | .int32 | .int64 => true
  | _ => false

def DataType.integer : DataType → Bool
  | .int8 | .uint8 | .int32 | .uint32 | .int64 | .uint64 => true
  | _ => false

def DataType.less {w : Nat} (datatype : DataType) : BitVec w → BitVec w → Bool :=
  if datatype.signed then BitVec.slt else BitVec.ult

def reduceElement (float : FloatOps) (datatype : DataType) (w : Nat) : RedOp → Option (BitVec w → BitVec w → BitVec w)
  | .sum => match datatype with
    | .float16 | .bfloat16 => none
    | .float32 | .float64 => some (float.sum w)
    | _ => some (· + ·)
  | .max => match datatype with
    | .float16 | .bfloat16 => none
    | .float32 | .float64 => some (float.max w)
    | _ => some (maxBy datatype.less)
  | .min => match datatype with
    | .float16 | .bfloat16 => none
    | .float32 | .float64 => some (float.min w)
    | _ => some (minBy datatype.less)
  | _ => none

/-- The operators that the ring reductions know. -/
def RedOp.accepted : RedOp → Bool
  | .sum | .max | .min => true
  | _ => false

def DataType.reducible : DataType → Bool
  | .float16 | .bfloat16 => false
  | _ => true

variable {float : FloatOps} {datatype : DataType} {op : RedOp}

theorem reduceElement_isSome {w : Nat} : (reduceElement float datatype w op).isSome ↔ op.accepted ∧ datatype.reducible := by
  cases op <;> cases datatype <;> simp [reduceElement, RedOp.accepted, DataType.reducible]

/-! ### Integers -/

structure TotalOrder {w : Nat} (less : BitVec w → BitVec w → Bool) : Prop where
  asymm : ∀ {a b}, less a b = true → less b a = false
  antisymm : ∀ {a b}, less a b = false → less b a = false → a = b
  trans : ∀ {a b c}, less a b = false → less b c = false → less a c = false

section Integers
variable {w : Nat} {less : BitVec w → BitVec w → Bool}

theorem TotalOrder.flip (h : TotalOrder less) : TotalOrder fun a b => less b a where
  asymm hab := h.asymm hab
  antisymm hab hba := h.antisymm hba hab
  trans hab hbc := h.trans hbc hab

theorem DataType.less_order (datatype : DataType) : TotalOrder (datatype.less : BitVec w → BitVec w → Bool) := by
  unfold DataType.less
  split_ifs
  · constructor
    · intro a b h
      simp only [BitVec.slt, decide_eq_true_eq, decide_eq_false_iff_not] at *
      omega
    · intro a b h h'
      simp only [BitVec.slt, decide_eq_false_iff_not] at *
      exact BitVec.eq_of_toInt_eq (by omega)
    · intro a b c h h'
      simp only [BitVec.slt, decide_eq_false_iff_not] at *
      omega
  · constructor
    · intro a b h
      simp only [BitVec.ult, decide_eq_true_eq, decide_eq_false_iff_not] at *
      omega
    · intro a b h h'
      simp only [BitVec.ult, decide_eq_false_iff_not] at *
      exact BitVec.eq_of_toNat_eq (by omega)
    · intro a b c h h'
      simp only [BitVec.ult, decide_eq_false_iff_not] at *
      omega

theorem TotalOrder.maxBy_comm (h : TotalOrder less) (a b : BitVec w) : maxBy less a b = maxBy less b a := by
  unfold maxBy
  cases hab : less a b <;> cases hba : less b a
  · exact h.antisymm hab hba
  · rfl
  · rfl
  · rw [h.asymm hab] at hba
    cases hba

theorem TotalOrder.maxBy_assoc (h : TotalOrder less) (a b c : BitVec w) :
    maxBy less (maxBy less a b) c = maxBy less a (maxBy less b c) := by
  unfold maxBy
  cases hab : less a b with
  | true =>
    cases hbc : less b c with
    | true =>
      have hac : less a c = true := by
        by_contra hnot
        have hfalse := h.trans (eq_false_of_ne_true hnot) (h.asymm hbc)
        rw [hab] at hfalse
        cases hfalse
      simp [hac, hbc]
    | false => simp [hab, hbc]
  | false =>
    cases hbc : less b c with
    | true => simp
    | false => simp [hab, h.trans hab hbc]

theorem reduceElement_integer {f : BitVec w → BitVec w → BitVec w}
    (hinteger : datatype.integer = true) (hf : reduceElement float datatype w op = some f) :
    (∀ a b, f a b = f b a) ∧ ∀ a b c, f (f a b) c = f a (f b c) := by
  have horder : TotalOrder (datatype.less : BitVec w → BitVec w → Bool) := datatype.less_order
  cases op with
  | sum =>
    have hsum : f = (· + ·) := by
      cases datatype <;> first | exact (some.inj hf).symm | cases hinteger
    rw [hsum]
    exact ⟨BitVec.add_comm, BitVec.add_assoc⟩
  | max =>
    have hmax : f = maxBy datatype.less := by
      cases datatype <;> first | exact (some.inj hf).symm | cases hinteger
    rw [hmax]
    exact ⟨horder.maxBy_comm, horder.maxBy_assoc⟩
  | min =>
    have hmin : f = minBy datatype.less := by
      cases datatype <;> first | exact (some.inj hf).symm | cases hinteger
    rw [hmin]
    exact ⟨horder.flip.maxBy_comm, horder.flip.maxBy_assoc⟩
  | prod => cases hf
  | avg => cases hf

end Integers

/-! ## Reductions -/

section Reductions
variable {w : Nat} {f : BitVec w → BitVec w → BitVec w} {x : Nat → BitVec w}

def reduceOver (f : BitVec w → BitVec w → BitVec w) (x : Nat → BitVec w) (first : Nat) (rest : List Nat) : BitVec w :=
  rest.foldl (fun acc r => f (x r) acc) (x first)

/-- A value is the reduction of the elements of `n` ranks, in some order. -/
def Reduces (f : BitVec w → BitVec w → BitVec w) (x : Nat → BitVec w) (n : Nat) (v : BitVec w) : Prop :=
  ∃ first rest, (first :: rest).Perm (range n) ∧ v = reduceOver f x first rest

def addElement (f : BitVec w → BitVec w → BitVec w) (x : Nat → BitVec w) : Option (BitVec w) → Nat → Option (BitVec w)
  | none, r => some (x r)
  | some acc, r => some (f (x r) acc)

theorem foldl_addElement (first : Nat) (rest : List Nat) :
    (first :: rest).foldl (addElement f x) none = some (reduceOver f x first rest) := by
  have hsome : ∀ acc, rest.foldl (addElement f x) (some acc) = some (rest.foldl (fun acc r => f (x r) acc) acc) := by
    induction rest with
    | nil => exact fun _ => rfl
    | cons r rest ih => exact fun acc => ih (f (x r) acc)
  exact hsome (x first)

/-- The order does not matter for an operation that is commutative and associative. -/
theorem Reduces.unique {n : Nat} {v v' : BitVec w} (hcomm : ∀ a b, f a b = f b a) (hassoc : ∀ a b c, f (f a b) c = f a (f b c))
    (h : Reduces f x n v) (h' : Reduces f x n v') : v = v' := by
  obtain ⟨first, rest, hperm, rfl⟩ := h
  obtain ⟨first', rest', hperm', rfl⟩ := h'
  have hswap : ∀ a b acc, addElement f x (addElement f x acc a) b = addElement f x (addElement f x acc b) a := by
    intro a b acc
    cases acc with
    | none => exact congrArg some (hcomm _ _)
    | some acc => exact congrArg some (by rw [← hassoc, hcomm (x b), hassoc])
  have hfold : (first :: rest).foldl (addElement f x) none = (first' :: rest').foldl (addElement f x) none :=
    (hperm.trans hperm'.symm).foldl_eq' (fun a _ b _ acc => hswap a b acc) none
  rw [foldl_addElement, foldl_addElement] at hfold
  exact some.inj hfold

/-- A value is what an operator gives for the elements of `n` ranks: reduced in some order, and for integers in any order. -/
def Reduced (float : FloatOps) (datatype : DataType) (op : RedOp) (x : Nat → BitVec w) (n : Nat) (v : BitVec w) : Prop :=
  ∃ f, reduceElement float datatype w op = some f ∧ Reduces f x n v ∧
    (datatype.integer = true → v = reduceOver f x 0 (range' 1 (n - 1)))

theorem Reduces.reduced {n : Nat} {v : BitVec w}
    (hf : reduceElement float datatype w op = some f) (h : Reduces f x n v) : Reduced float datatype op x n v := by
  refine ⟨f, hf, h, fun hinteger => ?_⟩
  obtain ⟨hcomm, hassoc⟩ := reduceElement_integer hinteger hf
  refine h.unique hcomm hassoc ⟨0, range' 1 (n - 1), ?_, rfl⟩
  obtain ⟨first, rest, hperm, -⟩ := h
  have hpos : n = n - 1 + 1 := by
    have hlength := hperm.length_eq
    rw [length_cons, length_range] at hlength
    omega
  rw [range_eq_range', hpos, range'_succ]
  exact .refl _

end Reductions

section Loop
variable {n : Nat} (f : BitVec (8 * n) → BitVec (8 * n) → BitVec (8 * n))

/-- The loop of `sum`, `max` and `min` over `count` elements: the first operands are those of `own` from `addr` on, and the second
ones those of `data`, where the results go. -/
def reduceInto (own : Buffer) (addr count : Nat) (data : Buffer) : Buffer :=
  (range count).foldl (fun data i => store data (i * n) (f (load n own (addr + i * n)) (load n data (i * n)))) data

theorem load_reduceInto (own data : Buffer) (addr count j : Nat) : load n (reduceInto f own addr count data) (j * n) =
    if j < count then f (load n own (addr + j * n)) (load n data (j * n)) else load n data (j * n) := by
  induction count with
  | zero => rfl
  | succ count ih =>
    have hlast : reduceInto f own addr (count + 1) data = store (reduceInto f own addr count data) (count * n)
        (f (load n own (addr + count * n)) (load n (reduceInto f own addr count data) (count * n))) := by
      rw [reduceInto, range_succ, foldl_append]
      rfl
    rw [hlast]
    rcases lt_trichotomy j count with hlt | rfl | hgt
    · have hapart := Buffer.apart_blocks (Nat.ne_of_lt hlt) 0 n
      rw [Nat.zero_add, Nat.zero_add] at hapart
      rw [load_store_apart hapart, ih, if_pos hlt, if_pos (by omega)]
    · rw [load_store, ih, if_neg (lt_irrefl j), if_pos (Nat.lt_succ_self j)]
    · have hapart := Buffer.apart_blocks (Nat.ne_of_gt hgt) 0 n
      rw [Nat.zero_add, Nat.zero_add] at hapart
      rw [load_store_apart hapart, ih, if_neg (by omega), if_neg (by omega)]

end Loop

end FlagCX.Bootstrap
