import Mathlib.Logic.Function.Basic
import Mathlib.Tactic.SplitIfs
import FlagCX.Result

/-!
# Release groups and the completion scoreboard (`net_transport.cc`)

The completion tracking of the network transport: `trackSubmit`, `trackCancel` and `trackCompletion` on a
`CompletionScoreboard`, with the release groups they update.

* Every call holds the scoreboard's lock, and the group's while it touches the group, so a call is one step on the
  pair of the scoreboard and the groups. The groups are a store indexed by pointer.
* Sequences are 64-bit words with wrapping arithmetic, as in the source. The entry array is a function of the slot, of
  which only the slots below `capacity` are used. `inFlight` counts entries, so it needs no more than 32 bits.
* The null-pointer checks of the entry points are left out, and so is `laneMask`, which no function here reads.
-/

namespace FlagCX.Net
open Function

def uint64Max : UInt64 := 0xFFFFFFFFFFFFFFFF

def uint32Max : UInt32 := 0xFFFFFFFF

/-- `flagcxNetSubmitContext`: the identity of a submission. -/
structure SubmitContext where
  orderingKey : UInt64
  groupId : UInt64
  generation : UInt64
  sequence : UInt64
  flags : UInt32
  deriving DecidableEq, Repr

/-! ## Release groups -/

inductive ReleaseGroupState where
  | opened
  | sealed
  | complete
  deriving DecidableEq, Repr

/-- `flagcxNetReleaseGroup`: a completion gate over a set of submissions. -/
structure ReleaseGroup where
  groupId : UInt64
  generation : UInt64
  state : ReleaseGroupState
  pending : UInt32
  members : UInt32
  releaseAllowed : Bool
  firstError : Result
  deriving DecidableEq, Repr

def releaseGroupTrackLocked (group : ReleaseGroup) (context : SubmitContext) : Result × ReleaseGroup :=
  if group.state ≠ .opened ∨ group.groupId ≠ context.groupId ∨ group.generation ≠ context.generation ∨
      group.pending = uint32Max ∨ group.members = uint32Max then
    (.invalidArgument, group)
  else
    (.success, { group with pending := group.pending + 1, members := group.members + 1 })

def releaseGroupCompleteLocked (group : ReleaseGroup) (result : Result) : Result × ReleaseGroup :=
  if group.state = .complete ∨ group.pending = 0 then
    (.invalidArgument, group)
  else
    let firstError := if result ≠ .success ∧ group.firstError = .success then result else group.firstError
    let pending := group.pending - 1
    if pending = 0 ∧ group.state = .sealed then
      (.success, { group with
        firstError := firstError, pending := pending,
        releaseAllowed := decide (firstError = .success), state := .complete })
    else
      (.success, { group with firstError := firstError, pending := pending })

theorem releaseGroupTrackLocked_failed {group : ReleaseGroup} {context : SubmitContext}
    (h : (releaseGroupTrackLocked group context).1 ≠ .success) :
    (releaseGroupTrackLocked group context).2 = group := by
  unfold releaseGroupTrackLocked at h ⊢
  split_ifs at h ⊢ with hc
  · rfl
  · exact absurd rfl h

theorem releaseGroupCompleteLocked_failed {group : ReleaseGroup} {result : Result}
    (h : (releaseGroupCompleteLocked group result).1 ≠ .success) :
    (releaseGroupCompleteLocked group result).2 = group := by
  unfold releaseGroupCompleteLocked at h ⊢
  by_cases hc : group.state = .complete ∨ group.pending = 0
  · rw [if_pos hc]
  · rw [if_neg hc] at h
    dsimp only at h
    split at h <;> exact absurd rfl h

/-! ## The scoreboard -/

inductive CompletionEntryState where
  | free
  | pending
  | complete
  deriving DecidableEq, Repr

/-- `flagcxNetCompletionEntry`. The release group is a pointer into the group store. -/
structure CompletionEntry where
  context : SubmitContext
  releaseGroup : Option Nat
  result : Result
  state : CompletionEntryState
  deriving DecidableEq, Repr

def completionEntryReset : CompletionEntry :=
  { context := ⟨0, 0, 0, 0, 0⟩, releaseGroup := none, result := .success, state := .free }

structure CompletionScoreboard where
  entries : Nat → CompletionEntry
  capacity : UInt32
  inFlight : Nat
  generation : UInt64
  nextSequence : UInt64
  firstError : Result

namespace CompletionScoreboard

def init (capacity : UInt32) (generation initialSequence : UInt64) : Except Result CompletionScoreboard :=
  if capacity = 0 ∨ initialSequence = uint64Max then .error .invalidArgument
  else .ok {
    entries := fun _ => completionEntryReset, capacity := capacity, inFlight := 0, generation := generation,
    nextSequence := initialSequence, firstError := .success }

def slot (sb : CompletionScoreboard) (sequence : UInt64) : Nat := sequence.toNat % sb.capacity.toNat

def entryAt (sb : CompletionScoreboard) (sequence : UInt64) : CompletionEntry := sb.entries (sb.slot sequence)

def setEntry (sb : CompletionScoreboard) (sequence : UInt64) (e : CompletionEntry) : CompletionScoreboard :=
  { sb with entries := update sb.entries (sb.slot sequence) e }

/-- The write of `flagcxNetTrackSubmit`: a pending entry, and one more in flight. -/
def submitEntry (sb : CompletionScoreboard) (context : SubmitContext) (releaseGroup : Option Nat) : CompletionScoreboard :=
  { sb.setEntry context.sequence ⟨context, releaseGroup, .success, .pending⟩ with inFlight := sb.inFlight + 1 }

/-- `flagcxNetCompletionEntryReset` on the slot of a sequence, and one fewer in flight. -/
def dropEntry (sb : CompletionScoreboard) (sequence : UInt64) : CompletionScoreboard :=
  { sb.setEntry sequence completionEntryReset with inFlight := sb.inFlight - 1 }

/-- The guard of the retirement loop: the entry at `nextSequence` is complete and is the one expected there. -/
def headComplete (sb : CompletionScoreboard) : Prop :=
  (sb.entryAt sb.nextSequence).state = .complete ∧ (sb.entryAt sb.nextSequence).context.generation = sb.generation ∧
    (sb.entryAt sb.nextSequence).context.sequence = sb.nextSequence

instance (sb : CompletionScoreboard) : Decidable sb.headComplete := inferInstanceAs (Decidable (_ ∧ _ ∧ _))

def retireHead (sb : CompletionScoreboard) : CompletionScoreboard :=
  { sb.dropEntry sb.nextSequence with nextSequence := sb.nextSequence + 1 }

/-- The retirement loop of `flagcxNetTrackCompletion`. Each iteration takes one from `inFlight` and the loop stops at
zero, so it is a recursion on `inFlight`; the second component is `*advanced`. -/
def retire : Nat → CompletionScoreboard → Nat → CompletionScoreboard × Nat
  | 0, sb, advanced => (sb, advanced)
  | n + 1, sb, advanced => if sb.headComplete then retire n sb.retireHead (advanced + 1) else (sb, advanced)

def retiredSequences : Nat → CompletionScoreboard → List UInt64
  | 0, _ => []
  | n + 1, sb =>
    if sb.headComplete then (sb.entryAt sb.nextSequence).context.sequence :: retiredSequences n sb.retireHead else []

/-- `flagcxNetTrackCompletion` up to its loop: the entry becomes complete and the first error is recorded. -/
def completeEntry (sb : CompletionScoreboard) (sequence : UInt64) (result : Result) : CompletionScoreboard :=
  { sb.setEntry sequence { sb.entryAt sequence with result := result, state := .complete } with
    firstError := if result ≠ .success ∧ sb.firstError = .success then result else sb.firstError }

end CompletionScoreboard

def submitContextMatches (lhs rhs : SubmitContext) : Bool :=
  lhs.orderingKey == rhs.orderingKey && lhs.groupId == rhs.groupId && lhs.generation == rhs.generation &&
    lhs.sequence == rhs.sequence && lhs.flags == rhs.flags

/-! ## The calls -/

/-- A scoreboard and the store of release groups. -/
structure Tracker where
  scoreboard : CompletionScoreboard
  groups : Nat → ReleaseGroup

def trackSubmit (t : Tracker) (context : SubmitContext) (releaseGroup : Option Nat) : Result × Tracker :=
  let sb := t.scoreboard
  if sb.capacity = 0 ∨ context.sequence = uint64Max then (.invalidArgument, t)
  else if context.generation ≠ sb.generation ∨ context.sequence < sb.nextSequence then (.invalidArgument, t)
  else if sb.capacity.toNat ≤ (context.sequence - sb.nextSequence).toNat then (.inProgress, t)
  else if (sb.entryAt context.sequence).state ≠ .free then (.invalidArgument, t)
  else
    match releaseGroup with
    | none =>
      if context.groupId ≠ 0 then (.invalidArgument, t)
      else (.success, { t with scoreboard := sb.submitEntry context none })
    | some p =>
      if context.groupId = 0 then (.invalidArgument, t)
      else
        let tracked := releaseGroupTrackLocked (t.groups p) context
        let groups := update t.groups p tracked.2
        if tracked.1 = .success then (.success, ⟨sb.submitEntry context (some p), groups⟩)
        else (tracked.1, ⟨sb, groups⟩)

/-- The checks `flagcxNetTrackCancel` and `flagcxNetTrackCompletion` share: the context names a pending entry of the
window. -/
def namesPending (sb : CompletionScoreboard) (context : SubmitContext) : Prop :=
  sb.capacity ≠ 0 ∧ context.generation = sb.generation ∧ sb.nextSequence ≤ context.sequence ∧
    (context.sequence - sb.nextSequence).toNat < sb.capacity.toNat ∧
    (sb.entryAt context.sequence).state = .pending ∧
    submitContextMatches (sb.entryAt context.sequence).context context = true

instance (sb : CompletionScoreboard) (context : SubmitContext) : Decidable (namesPending sb context) :=
  inferInstanceAs (Decidable (_ ∧ _ ∧ _ ∧ _ ∧ _ ∧ _))

def trackCancel (t : Tracker) (context : SubmitContext) : Result × Tracker :=
  let sb := t.scoreboard
  if ¬ namesPending sb context then (.invalidArgument, t)
  else
    match (sb.entryAt context.sequence).releaseGroup with
    | none => (.success, { t with scoreboard := sb.dropEntry context.sequence })
    | some p =>
      let group := t.groups p
      if group.state ≠ .opened ∨ group.pending = 0 ∨ group.members = 0 then (.invalidArgument, t)
      else (.success, ⟨sb.dropEntry context.sequence,
        update t.groups p { group with pending := group.pending - 1, members := group.members - 1 }⟩)

/-- `flagcxNetTrackCompletion`; the second component is `*advanced`. -/
def trackCompletion (t : Tracker) (context : SubmitContext) (result : Result) : Result × Nat × Tracker :=
  let sb := t.scoreboard
  if ¬ namesPending sb context then (.invalidArgument, 0, t)
  else if result = .inProgress then (.success, 0, t)
  else
    let completed :=
      match (sb.entryAt context.sequence).releaseGroup with
      | none => (Result.success, t.groups)
      | some p =>
        let done := releaseGroupCompleteLocked (t.groups p) result
        (done.1, update t.groups p done.2)
    if completed.1 ≠ .success then (completed.1, 0, ⟨sb, completed.2⟩)
    else
      let out := (sb.completeEntry context.sequence result).retire sb.inFlight 0
      (.success, out.2, ⟨out.1, completed.2⟩)

end FlagCX.Net
