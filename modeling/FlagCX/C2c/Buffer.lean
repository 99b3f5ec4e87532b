import Mathlib.Algebra.GroupWithZero.Nat
import Mathlib.Data.List.Basic

/-!
# Buffer infos of the inter-ranks (`flagcxBufferInfo`, `flagcxInterRankBufferInfoManager`)

A buffer info is one element range at one inter-rank, to be sent to another cluster or received from it. The planner
decides from the ranges alone whether a further range fits.

* `checkIfPossibleToSplitAndPush` : the longest prefix or suffix that fits. The loop of the source keeps the largest
  count and the last mode it saw; there is at most one candidate (`Candidate.unique`), so the two always belong
  together (`checkIfPossibleToSplitAndPush_candidate`).
-/

namespace FlagCX.C2c

/-- `flagcxBufferInfo`. A peer or loop of `-1` is `none`. -/
structure BufferInfo where
  offset : Nat
  count : Nat
  clusterIdToSend : Nat
  isRecv : Bool
  isScheduled : Bool
  peerRank : Option Nat
  loopId : Option Nat
  deriving DecidableEq, Repr

namespace BufferInfo

/-- The element `x` lies in the range of the info. -/
def Contains (e : BufferInfo) (x : Nat) : Prop := e.offset ≤ x ∧ x < e.offset + e.count

instance (e : BufferInfo) (x : Nat) : Decidable (e.Contains x) := inferInstanceAs (Decidable (_ ∧ _))

/-- The two ranges share no element. -/
def Disjoint (e f : BufferInfo) : Prop := ∀ x, ¬ (e.Contains x ∧ f.Contains x)

theorem Disjoint.symm {e f : BufferInfo} (h : e.Disjoint f) : f.Disjoint e := fun x hx => h x ⟨hx.2, hx.1⟩

end BufferInfo

/-- The condition under which `checkIfPossibleToPush` refuses a range because of one info of the list. -/
def clash (offset count : Nat) (info : BufferInfo) : Prop :=
  (offset < info.offset ∧ info.offset < offset + count) ∨ offset = info.offset ∨
    (info.offset < offset ∧ offset < info.offset + info.count)

instance (offset count : Nat) (info : BufferInfo) : Decidable (clash offset count info) :=
  inferInstanceAs (Decidable (_ ∨ _ ∨ _))

/-- `flagcxInterRankBufferInfoManager::checkIfPossibleToPush` on the list of one inter-rank. -/
def checkIfPossibleToPush (infoList : List BufferInfo) (offset count : Nat) : Bool :=
  infoList.all fun info => ¬ clash offset count info

theorem checkIfPossibleToPush_iff {infoList : List BufferInfo} {offset count : Nat} :
    checkIfPossibleToPush infoList offset count = true ↔ ∀ info ∈ infoList, ¬ clash offset count info := by
  simp [checkIfPossibleToPush]

variable {info : BufferInfo}

theorem disjoint_of_possibleToPush {infoList : List BufferInfo} {e : BufferInfo}
    (h : checkIfPossibleToPush infoList e.offset e.count = true) (hi : info ∈ infoList) :
    e.Disjoint info := by
  have hc := checkIfPossibleToPush_iff.1 h info hi
  rintro x ⟨⟨h1, h2⟩, ⟨h3, h4⟩⟩
  apply hc
  unfold clash
  omega

/-! ## Splitting -/

/-- The piece of a split that is pushed: the front of the range or its back. -/
inductive PushMode where
  | prePush
  | postPush
  deriving DecidableEq, Repr

def PushMode.pieceOffset (mode : PushMode) (offset count splitCount : Nat) : Nat :=
  match mode with
  | .prePush => offset
  | .postPush => offset + count - splitCount

def PushMode.restOffset (mode : PushMode) (offset splitCount : Nat) : Nat :=
  match mode with
  | .prePush => offset + splitCount
  | .postPush => offset

def offersPrefix (infoList : List BufferInfo) (offset count : Nat) (info : BufferInfo) : Prop :=
  (offset < info.offset ∧ info.offset < offset + count) ∧ checkIfPossibleToPush infoList offset (info.offset - offset) = true

def offersSuffix (infoList : List BufferInfo) (offset count : Nat) (info : BufferInfo) : Prop :=
  (info.offset ≤ offset ∧ offset < info.offset + info.count ∧ info.offset + info.count < offset + count) ∧
    checkIfPossibleToPush infoList (info.offset + info.count) (offset + count - info.offset - info.count) = true

instance (infoList : List BufferInfo) (offset count : Nat) (info : BufferInfo) :
    Decidable (offersPrefix infoList offset count info) := inferInstanceAs (Decidable (_ ∧ _))

instance (infoList : List BufferInfo) (offset count : Nat) (info : BufferInfo) :
    Decidable (offersSuffix infoList offset count info) := inferInstanceAs (Decidable (_ ∧ _))

/-- The first test of the loop body of `checkIfPossibleToSplitAndPush`, on `(maxSplitCount, finalPushMode)`. -/
def prefixStep (infoList : List BufferInfo) (offset count : Nat) (acc : Nat × PushMode) (info : BufferInfo) :
    Nat × PushMode :=
  if offersPrefix infoList offset count info then (max (info.offset - offset) acc.1, .prePush) else acc

/-- The second test of the loop body. -/
def suffixStep (infoList : List BufferInfo) (offset count : Nat) (acc : Nat × PushMode) (info : BufferInfo) :
    Nat × PushMode :=
  if offersSuffix infoList offset count info then (max (offset + count - info.offset - info.count) acc.1, .postPush)
  else acc

/-- The loop body of `checkIfPossibleToSplitAndPush`. -/
def splitStep (infoList : List BufferInfo) (offset count : Nat) (acc : Nat × PushMode) (info : BufferInfo) :
    Nat × PushMode :=
  suffixStep infoList offset count (prefixStep infoList offset count acc info) info

/-- `flagcxInterRankBufferInfoManager::checkIfPossibleToSplitAndPush` on the list of one inter-rank. -/
def checkIfPossibleToSplitAndPush (infoList : List BufferInfo) (offset count : Nat) : Option (Nat × PushMode) :=
  let final := infoList.foldl (splitStep infoList offset count) (0, .prePush)
  if 0 < final.1 then some final else none

def Candidate (infoList : List BufferInfo) (offset count : Nat) (piece : Nat × PushMode) : Prop :=
  ∃ info ∈ infoList,
    (offersPrefix infoList offset count info ∧ piece = (info.offset - offset, .prePush)) ∨
    (offersSuffix infoList offset count info ∧ piece = (offset + count - info.offset - info.count, .postPush))

section Split
variable {infoList : List BufferInfo} {offset count : Nat} {piece piece' : Nat × PushMode}

section

variable (h : Candidate infoList offset count piece)
include h

theorem Candidate.unique (h' : Candidate infoList offset count piece') : piece = piece' := by
  obtain ⟨a, ha, hp⟩ := h
  obtain ⟨b, hb, hq⟩ := h'
  rcases hp with ⟨⟨hr, hc⟩, rfl⟩ | ⟨⟨hr, hc⟩, rfl⟩ <;> rcases hq with ⟨⟨hs, hd⟩, rfl⟩ | ⟨⟨hs, hd⟩, rfl⟩
  all_goals
    have h1 := checkIfPossibleToPush_iff.1 hc b hb
    have h2 := checkIfPossibleToPush_iff.1 hd a ha
    unfold clash at h1 h2
  · rw [Prod.mk.injEq]
    exact ⟨by omega, rfl⟩
  · omega
  · omega
  · rw [Prod.mk.injEq]
    exact ⟨by omega, rfl⟩

theorem Candidate.pos : 0 < piece.1 := by
  obtain ⟨a, -, ⟨⟨hr, -⟩, rfl⟩ | ⟨⟨hr, -⟩, rfl⟩⟩ := h
  · exact Nat.sub_pos_of_lt hr.1
  · omega

theorem Candidate.lt : piece.1 < count := by
  obtain ⟨a, -, ⟨⟨hr, -⟩, rfl⟩ | ⟨⟨hr, -⟩, rfl⟩⟩ := h <;> dsimp only <;> omega

theorem Candidate.possible : checkIfPossibleToPush infoList (piece.2.pieceOffset offset count piece.1) piece.1 = true := by
  obtain ⟨a, -, ⟨⟨hr, hc⟩, rfl⟩ | ⟨⟨hr, hc⟩, rfl⟩⟩ := h
  · exact hc
  · have he : offset + count - (offset + count - a.offset - a.count) = a.offset + a.count := by omega
    simpa [PushMode.pieceOffset, he] using hc

end

/-- The accumulator of the loop: nothing found yet, or the offered piece. -/
def Found (infoList : List BufferInfo) (offset count : Nat) (acc : Nat × PushMode) : Prop :=
  acc = (0, .prePush) ∨ Candidate infoList offset count acc

section

variable (h : Found infoList offset count piece)
include h

theorem Found.max (hp : Candidate infoList offset count piece') :
    Found infoList offset count (Max.max piece'.1 piece.1, piece'.2) := by
  rcases h with rfl | h
  · exact .inr (by simpa using hp)
  · obtain rfl := h.unique hp
    exact .inr (by simpa using hp)

theorem Found.prefixStep (hi : info ∈ infoList) :
    Found infoList offset count (prefixStep infoList offset count piece info) := by
  unfold C2c.prefixStep
  split_ifs with ho
  · exact h.max ⟨info, hi, .inl ⟨ho, rfl⟩⟩
  · exact h

theorem Found.suffixStep (hi : info ∈ infoList) :
    Found infoList offset count (suffixStep infoList offset count piece info) := by
  unfold C2c.suffixStep
  split_ifs with ho
  · exact h.max ⟨info, hi, .inr ⟨ho, rfl⟩⟩
  · exact h

end

theorem Found.foldl (l : List BufferInfo) (hl : ∀ i ∈ l, i ∈ infoList) (h : Found infoList offset count piece) :
    Found infoList offset count (l.foldl (splitStep infoList offset count) piece) := by
  induction l generalizing piece with
  | nil => exact h
  | cons i l ih =>
    have hi : i ∈ infoList := hl i List.mem_cons_self
    exact ih (fun x hx => hl x (List.mem_cons_of_mem _ hx)) ((h.prefixStep hi).suffixStep hi)

theorem checkIfPossibleToSplitAndPush_candidate
    (h : checkIfPossibleToSplitAndPush infoList offset count = some piece) : Candidate infoList offset count piece := by
  unfold checkIfPossibleToSplitAndPush at h
  dsimp only at h
  split_ifs at h with hpos
  rcases Found.foldl infoList (fun _ hi => hi) (.inl rfl) with h0 | hc
  · rw [h0] at hpos
    exact absurd hpos (Nat.lt_irrefl 0)
  · rw [Option.some.inj h] at hc
    exact hc

end Split

end FlagCX.C2c
