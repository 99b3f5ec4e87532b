import FlagCX.P2p.Transfer

/-!
# The scoreboard of a transfer

A transfer submits `n` sequences at once on a scoreboard with `n` slots, so a sequence stands at the slot of its own
number. `Board n submit done sb` says so for the items that are `done`, and `Board.trackCompletion` is what one
completion does: it always succeeds on an item that is not done, and the sequences retired are the done ones at the front.
-/

namespace FlagCX.P2p
open Function

open Net

/-- The scoreboard holds the submissions of the items from `nextSequence` on, complete where the item is done. -/
structure Board (n : Nat) (submit : Nat → SubmitContext) (done : Nat → Prop) (sb : CompletionScoreboard) : Prop where
  capacity : sb.capacity.toNat = n
  inFlight : sb.nextSequence.toNat + sb.inFlight = n
  retired : ∀ i < sb.nextSequence.toNat, done i
  generation : ∀ i < n, (submit i).generation = sb.generation
  sequence : ∀ i < n, (submit i).sequence.toNat = i
  context : ∀ i < n, sb.nextSequence.toNat ≤ i → (sb.entries i).context = submit i ∧ (sb.entries i).releaseGroup = some 0
  complete : ∀ i < n, sb.nextSequence.toNat ≤ i → done i → (sb.entries i).state = .complete
  pending : ∀ i < n, sb.nextSequence.toNat ≤ i → ¬ done i → (sb.entries i).state = .pending

def Stopped (n : Nat) (done : Nat → Prop) (sb : CompletionScoreboard) : Prop :=
  sb.nextSequence.toNat < n → ¬ done sb.nextSequence.toNat

section
variable {n : Nat} {submit : Nat → SubmitContext} {done : Nat → Prop} {sb : CompletionScoreboard}

theorem Board.slot (h : Board n submit done sb) {q : UInt64} (hq : q.toNat < n) : sb.slot q = q.toNat := by
  rw [CompletionScoreboard.slot, h.capacity, Nat.mod_eq_of_lt hq]

variable {i : Nat}

theorem Board.slot_submit (h : Board n submit done sb) (hi : i < n) : sb.slot (submit i).sequence = i := by
  rw [h.slot (by rw [h.sequence i hi]; exact hi), h.sequence i hi]

theorem Board.headComplete_iff (h : Board n submit done sb) (hlt : sb.nextSequence.toNat < n) :
    sb.headComplete ↔ done sb.nextSequence.toNat := by
  have hentry : sb.entryAt sb.nextSequence = sb.entries sb.nextSequence.toNat := by
    rw [CompletionScoreboard.entryAt, h.slot hlt]
  obtain ⟨hcontext, -⟩ := h.context _ hlt le_rfl
  unfold CompletionScoreboard.headComplete
  rw [hentry, hcontext]
  constructor
  · intro hc
    by_contra hd
    rw [h.pending _ hlt le_rfl hd] at hc
    exact absurd hc.1 (by simp)
  · intro hd
    exact ⟨h.complete _ hlt le_rfl hd, h.generation _ hlt, UInt64.toNat_inj.1 (h.sequence _ hlt)⟩

theorem Board.retireHead (h : Board n submit done sb) (hlt : sb.nextSequence.toNat < n)
    (hd : done sb.nextSequence.toNat) : Board n submit done sb.retireHead := by
  have hcap := sb.capacity.toNat_lt
  have hn := h.capacity
  have hnext : (sb.nextSequence + 1).toNat = sb.nextSequence.toNat + 1 := by
    rw [UInt64.toNat_add, UInt64.toNat_one]
    omega
  have hentries : ∀ i, i ≠ sb.nextSequence.toNat → sb.retireHead.entries i = sb.entries i := by
    intro i hi
    exact update_of_ne (by rw [h.slot hlt]; exact hi) _ _
  have hin := h.inFlight
  refine ⟨h.capacity, ?_, ?_, h.generation, h.sequence, ?_, ?_, ?_⟩
  · change (sb.nextSequence + 1).toNat + (sb.inFlight - 1) = n
    omega
  · intro i hi
    change i < (sb.nextSequence + 1).toNat at hi
    by_cases he : i = sb.nextSequence.toNat
    · rw [he]
      exact hd
    · exact h.retired i (by omega)
  · intro i hi hle
    change (sb.nextSequence + 1).toNat ≤ i at hle
    rw [hentries i (by omega)]
    exact h.context i hi (by omega)
  · intro i hi hle hdone
    change (sb.nextSequence + 1).toNat ≤ i at hle
    rw [hentries i (by omega)]
    exact h.complete i hi (by omega) hdone
  · intro i hi hle hdone
    change (sb.nextSequence + 1).toNat ≤ i at hle
    rw [hentries i (by omega)]
    exact h.pending i hi (by omega) hdone

theorem Board.retire (k : Nat) (h : Board n submit done sb) (hk : sb.inFlight = k) (advanced : Nat) :
    Board n submit done (sb.retire k advanced).1 ∧ Stopped n done (sb.retire k advanced).1 ∧
      (sb.retire k advanced).1.firstError = sb.firstError := by
  induction k generalizing sb advanced with
  | zero =>
    refine ⟨h, fun hlt => ?_, rfl⟩
    have hlt' : sb.nextSequence.toNat < n := hlt
    have := h.inFlight
    omega
  | succ k ih =>
    have hlt : sb.nextSequence.toNat < n := by
      have := h.inFlight
      omega
    by_cases hd : done sb.nextSequence.toNat
    · have hc := (h.headComplete_iff hlt).2 hd
      have hin : sb.retireHead.inFlight = k := by
        change sb.inFlight - 1 = k
        omega
      have hrest := ih (h.retireHead hlt hd) hin (advanced + 1)
      rw [CompletionScoreboard.retire, if_pos hc]
      exact hrest
    · have hc : ¬ sb.headComplete := fun hc => hd ((h.headComplete_iff hlt).1 hc)
      rw [CompletionScoreboard.retire, if_neg hc]
      exact ⟨h, fun _ => hd, rfl⟩

theorem Board.completeEntry (h : Board n submit done sb) (hi : i < n) (result : Result) :
    Board n submit (fun j => done j ∨ j = i) (sb.completeEntry (submit i).sequence result) := by
  have hslot := h.slot_submit hi
  have hself : (sb.completeEntry (submit i).sequence result).entries i =
      { sb.entries i with result := result, state := .complete } := by
    change update sb.entries (sb.slot _) _ i = _
    rw [hslot, update_self, CompletionScoreboard.entryAt, hslot]
  have hother : ∀ j, j ≠ i → (sb.completeEntry (submit i).sequence result).entries j = sb.entries j := by
    intro j hj
    exact update_of_ne (by rw [hslot]; exact hj) _ _
  refine ⟨h.capacity, h.inFlight, fun j hj => .inl (h.retired j hj), h.generation, h.sequence, ?_, ?_, ?_⟩
  · intro j hj hle
    by_cases he : j = i
    · subst he
      rw [hself]
      exact h.context j hj hle
    · rw [hother j he]
      exact h.context j hj hle
  · intro j hj hle hdone
    by_cases he : j = i
    · subst he
      rw [hself]
    · rw [hother j he]
      exact h.complete j hj hle (hdone.resolve_right he)
  · intro j hj hle hdone
    have he : j ≠ i := fun he => hdone (.inr he)
    rw [hother j he]
    exact h.pending j hj hle fun hd => hdone (.inl hd)

theorem Board.namesPending (h : Board n submit done sb) (hi : i < n) (hd : ¬ done i) : namesPending sb (submit i) := by
  have hle : sb.nextSequence.toNat ≤ i := by
    by_contra hlt
    exact hd (h.retired i (by omega))
  have hseq := h.sequence i hi
  have hleq : sb.nextSequence ≤ (submit i).sequence := by
    rw [UInt64.le_iff_toNat_le, hseq]
    exact hle
  have hentry : sb.entryAt (submit i).sequence = sb.entries i := by rw [CompletionScoreboard.entryAt, h.slot_submit hi]
  refine ⟨?_, h.generation i hi, hleq, ?_, ?_, ?_⟩
  · intro hz
    have := h.capacity
    rw [hz] at this
    simp at this
    omega
  · rw [UInt64.toNat_sub_of_le _ _ hleq, h.capacity]
    omega
  · rw [hentry]
    exact h.pending i hi hle hd
  · rw [hentry, (h.context i hi hle).1]
    simp [submitContextMatches]

variable {groups : Nat → ReleaseGroup} {m : Nat} {clean : Prop}

theorem gate_completes {group : ReleaseGroup} {isSealed : Bool} (hg : Gate group (m + 1) clean isSealed)
    (result : Result) : (releaseGroupCompleteLocked group result).1 = .success := by
  have h1 : group.state ≠ .complete := fun hc => absurd (hg.closed.1 hc).2 (by omega)
  have h2 : group.pending ≠ 0 := by
    intro hz
    have := hg.pending
    rw [hz] at this
    simp at this
  unfold releaseGroupCompleteLocked
  rw [if_neg (by simp [h1, h2])]
  dsimp only
  split <;> rfl

theorem Board.trackCompletion (groups : Nat → ReleaseGroup) (h : Board n submit done sb) (hi : i < n) (hd : ¬ done i)
    (hg : Gate (groups 0) (m + 1) clean true) {result : Result} (hr : result ≠ .inProgress) :
    ∃ advanced out, trackCompletion ⟨sb, groups⟩ (submit i) result = (.success, advanced, out) ∧
      Board n submit (fun j => done j ∨ j = i) out.scoreboard ∧
      Stopped n (fun j => done j ∨ j = i) out.scoreboard ∧
      out.scoreboard.firstError = (if result ≠ .success ∧ sb.firstError = .success then result else sb.firstError) ∧
      Gate (out.groups 0) m (clean ∧ result = .success) true := by
  have hp := h.namesPending hi hd
  have hle : sb.nextSequence.toNat ≤ i := by
    by_contra hlt
    exact hd (h.retired i (by omega))
  have hgroup : (sb.entryAt (submit i).sequence).releaseGroup = some 0 := by
    rw [CompletionScoreboard.entryAt, h.slot_submit hi]
    exact (h.context i hi hle).2
  have hdone := gate_completes hg result
  have hboard := h.completeEntry hi result
  obtain ⟨hb, hs, hf⟩ := hboard.retire sb.inFlight rfl 0
  refine ⟨((sb.completeEntry (submit i).sequence result).retire sb.inFlight 0).2,
    ⟨_, update groups 0 (releaseGroupCompleteLocked (groups 0) result).2⟩, ?_, hb, hs, hf, ?_⟩
  · simp only [Net.trackCompletion, hp, not_true, if_false, hr, hgroup, hdone, ne_eq]
  · dsimp only
    rw [update_self]
    exact hg.complete hdone

end

/-! ## Submitting -/

/-- The scoreboard and the group after the submissions of the items below `k`. -/
structure Submitting (n k : Nat) (submit : Nat → SubmitContext) (groupId generation : UInt64) (t : Tracker) : Prop where
  capacity : t.scoreboard.capacity.toNat = n
  next : t.scoreboard.nextSequence = 0
  inFlight : t.scoreboard.inFlight = k
  sbGeneration : t.scoreboard.generation = generation
  firstError : t.scoreboard.firstError = .success
  entry : ∀ i < k, t.scoreboard.entries i = ⟨submit i, some 0, .success, .pending⟩
  free : ∀ i, k ≤ i → i < n → (t.scoreboard.entries i).state = .free
  gate : Gate (t.groups 0) k True false
  groupId : (t.groups 0).groupId = groupId
  groupGeneration : (t.groups 0).generation = generation
  members : (t.groups 0).members.toNat = k

section
variable {n k : Nat} {submit : Nat → SubmitContext} {groupId generation : UInt64} {t : Tracker}

/-- The context of item `k` when it is submitted. -/
structure Fresh (k : Nat) (groupId generation : UInt64) (context : SubmitContext) : Prop where
  sequence : context.sequence.toNat = k
  groupId : context.groupId = groupId
  generation : context.generation = generation

theorem Submitting.trackSubmit (h : Submitting n k submit groupId generation t) (hk : k < n)
    (hf : Fresh k groupId generation (submit k)) :
    (trackSubmit t (submit k) (some 0)).1 = .success ∧
      Submitting n (k + 1) submit groupId generation (trackSubmit t (submit k) (some 0)).2 := by
  have hcap := t.scoreboard.capacity.toNat_lt
  have hn := h.capacity
  have hseq := hf.sequence
  have hid : (t.groups 0).groupId ≠ 0 := h.gate.ident
  have hslot : t.scoreboard.slot (submit k).sequence = k := by
    rw [CompletionScoreboard.slot, hseq, hn, Nat.mod_eq_of_lt hk]
  have hfree : (t.scoreboard.entryAt (submit k).sequence).state = .free := by
    rw [CompletionScoreboard.entryAt, hslot]
    exact h.free k le_rfl hk
  have hmax : ∀ {a : UInt32}, a.toNat = k → a ≠ uint32Max := by
    intro a ha he
    rw [he] at ha
    have : uint32Max.toNat = 2 ^ 32 - 1 := rfl
    omega
  have hopen : (t.groups 0).state = .opened := by
    by_contra hne
    exact absurd (h.gate.shut.2 hne) (by simp)
  have htrack : (releaseGroupTrackLocked (t.groups 0) (submit k)).1 = .success ∧
      (releaseGroupTrackLocked (t.groups 0) (submit k)).2 =
        { t.groups 0 with pending := (t.groups 0).pending + 1, members := (t.groups 0).members + 1 } := by
    have hno : ¬ ((t.groups 0).state ≠ .opened ∨ (t.groups 0).groupId ≠ (submit k).groupId ∨
        (t.groups 0).generation ≠ (submit k).generation ∨ (t.groups 0).pending = uint32Max ∨
        (t.groups 0).members = uint32Max) := by
      simp [hopen, h.groupId, hf.groupId, h.groupGeneration, hf.generation, hmax h.gate.pending, hmax h.members]
    rw [releaseGroupTrackLocked, if_neg hno]
    exact ⟨rfl, rfl⟩
  have hzero : t.scoreboard.capacity ≠ 0 := by
    intro hz
    rw [hz] at hn
    simp at hn
    omega
  have hlast : (submit k).sequence ≠ uint64Max := by
    intro he
    rw [he] at hseq
    have : uint64Max.toNat = 2 ^ 64 - 1 := rfl
    omega
  have hwin : ¬ t.scoreboard.capacity.toNat ≤ ((submit k).sequence - t.scoreboard.nextSequence).toNat := by
    rw [h.next, UInt64.sub_zero, hseq]
    omega
  have hcall : Net.trackSubmit t (submit k) (some 0) = (.success, ⟨t.scoreboard.submitEntry (submit k) (some 0),
      update t.groups 0 (releaseGroupTrackLocked (t.groups 0) (submit k)).2⟩) := by
    have hlow : ¬ ((submit k).generation ≠ t.scoreboard.generation ∨ (submit k).sequence < t.scoreboard.nextSequence) := by
      simp [hf.generation, h.sbGeneration, h.next]
    simp only [Net.trackSubmit, hzero, hlast, or_self, if_false, hlow, hwin, hfree, ne_eq, not_true, hf.groupId,
      ← h.groupId, hid, htrack.1, if_true]
  rw [hcall]
  have hgate := (h.gate.track htrack.1).1
  refine ⟨rfl, ⟨hn, h.next, congrArg (· + 1) h.inFlight, h.sbGeneration, h.firstError, ?_, ?_, ?_, ?_, ?_, ?_⟩⟩
  · intro i hi
    change update t.scoreboard.entries (t.scoreboard.slot _) _ i = _
    rw [hslot]
    by_cases he : i = k
    · rw [he, update_self]
    · rw [update_of_ne he]
      exact h.entry i (by omega)
  · intro i hi hin
    change (update t.scoreboard.entries (t.scoreboard.slot _) _ i).state = _
    rw [hslot, update_of_ne (by omega)]
    exact h.free i (by omega) hin
  · dsimp only
    rw [update_self]
    exact hgate
  · dsimp only
    rw [update_self, htrack.2]
    exact h.groupId
  · dsimp only
    rw [update_self, htrack.2]
    exact h.groupGeneration
  · dsimp only
    rw [update_self, htrack.2]
    rw [toNat_succ (hmax h.members), h.members]

theorem Submitting.board (h : Submitting n n submit groupId generation t)
    (hf : ∀ i < n, Fresh i groupId generation (submit i)) : Board n submit (fun _ => False) t.scoreboard := by
  have hzero : t.scoreboard.nextSequence.toNat = 0 := by
    rw [h.next]
    rfl
  refine ⟨h.capacity, ?_, ?_, ?_, fun i hi => (hf i hi).sequence, ?_, ?_, ?_⟩
  · rw [hzero, h.inFlight, zero_add]
  · intro i hi
    omega
  · intro i hi
    rw [(hf i hi).generation, h.sbGeneration]
  · intro i hi _
    rw [h.entry i hi]
    exact ⟨rfl, rfl⟩
  · intro i _ _ hd
    exact hd.elim
  · intro i hi _ _
    rw [h.entry i hi]

end

end FlagCX.P2p
