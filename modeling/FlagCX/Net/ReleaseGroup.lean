import FlagCX.Net.Scoreboard

/-!
# Release groups over several scoreboards

A release group gates a remote write on a set of submissions. `Fabric` puts a family of scoreboards and the groups they
share under the calls of `net_transport.cc`; `Roster` is the history of one group: the submissions made to it since it was
last reset, and whether it has been sealed.

* `Ledgered`   : the group agrees with its roster and with the pending entries that reference it.
-/

namespace FlagCX.Net
open List Function

open Lib CompletionScoreboard

/-! ## The calls on a group -/

def releaseGroupInit (groupId generation : UInt64) : Except Result ReleaseGroup :=
  if groupId = 0 then .error .invalidArgument
  else .ok {
    groupId := groupId, generation := generation, state := .opened, pending := 0, members := 0, releaseAllowed := false,
    firstError := .success }

def releaseGroupSeal (group : ReleaseGroup) : Result × ReleaseGroup :=
  if group.groupId = 0 then (.invalidArgument, group)
  else if group.state ≠ .opened then (.invalidArgument, group)
  else if group.pending = 0 then
    (.success, { group with releaseAllowed := decide (group.firstError = .success), state := .complete })
  else (.success, { group with state := .sealed })

/-- What `flagcxNetReleaseGroupTest` writes to `*done` and `*releaseAllowed`, and its result. -/
structure GroupVerdict where
  result : Result
  done : Bool
  releaseAllowed : Bool
  deriving DecidableEq

def releaseGroupTest (group : ReleaseGroup) : GroupVerdict :=
  if group.groupId = 0 then ⟨.invalidArgument, false, false⟩
  else if group.state = .complete then ⟨group.firstError, true, group.releaseAllowed⟩
  else ⟨.success, false, false⟩

def releaseGroupReset (group : ReleaseGroup) (groupId generation : UInt64) : Result × ReleaseGroup :=
  if group.groupId = 0 ∨ groupId = 0 then (.invalidArgument, group)
  else if group.state ≠ .complete ∨ generation ≤ group.generation then (.invalidArgument, group)
  else (.success, {
    groupId := groupId, generation := generation, state := .opened, pending := 0, members := 0, releaseAllowed := false,
    firstError := .success })

/-! ## Scoreboards that share groups -/

/-- A family of scoreboards and the store of release groups. -/
structure Fabric (ι : Type) where
  boards : ι → CompletionScoreboard
  groups : Nat → ReleaseGroup

inductive GroupCall (ι : Type) where
  | submit (i : ι) (context : SubmitContext) (releaseGroup : Option Nat)
  | cancel (i : ι) (context : SubmitContext)
  | completion (i : ι) (context : SubmitContext) (result : Result)
  | groupSeal (p : Nat)
  | groupTest (p : Nat)
  | groupReset (p : Nat) (groupId generation : UInt64)

section

variable {ι : Type} [DecidableEq ι]

/-- A call on scoreboard `i`. -/
def Fabric.onBoard (f : Fabric ι) (i : ι) (out : Tracker) : Fabric ι := ⟨update f.boards i out.scoreboard, out.groups⟩

def Fabric.onGroup (f : Fabric ι) (p : Nat) (group : ReleaseGroup) : Fabric ι := { f with groups := update f.groups p group }

def Fabric.call (f : Fabric ι) : GroupCall ι → Result × Fabric ι
  | .submit i context p =>
    let out := trackSubmit ⟨f.boards i, f.groups⟩ context p
    (out.1, f.onBoard i out.2)
  | .cancel i context =>
    let out := trackCancel ⟨f.boards i, f.groups⟩ context
    (out.1, f.onBoard i out.2)
  | .completion i context result =>
    let out := trackCompletion ⟨f.boards i, f.groups⟩ context result
    (out.1, f.onBoard i out.2.2)
  | .groupSeal p => ((releaseGroupSeal (f.groups p)).1, f.onGroup p (releaseGroupSeal (f.groups p)).2)
  | .groupTest p => ((releaseGroupTest (f.groups p)).result, f)
  | .groupReset p groupId generation =>
    let out := releaseGroupReset (f.groups p) groupId generation
    (out.1, f.onGroup p out.2)

/-! ## The history of a group -/

inductive Standing where
  | pending
  | cancelled
  | completed (result : Result)
  deriving DecidableEq

/-- A submission made to the group. -/
structure Member (ι : Type) where
  board : ι
  sequence : UInt64
  standing : Standing

/-- The submissions to a group since its last reset, and whether it was sealed since. -/
structure Roster (ι : Type) where
  members : List (Member ι)
  sealed : Bool

def Member.settle (i : ι) (q : UInt64) (standing : Standing) (m : Member ι) : Member ι :=
  if m.board = i ∧ m.sequence = q ∧ m.standing = .pending then { m with standing := standing } else m

/-- What a successful call adds to the history of group `p`. -/
def Roster.record (p : Nat) (r : Roster ι) : GroupCall ι → Roster ι
  | .submit i context (some p') =>
    if p' = p then { r with members := r.members ++ [⟨i, context.sequence, .pending⟩] } else r
  | .submit _ _ none => r
  | .cancel i context => { r with members := r.members.map (Member.settle i context.sequence .cancelled) }
  | .completion i context result =>
    if result = .inProgress then r
    else { r with members := r.members.map (Member.settle i context.sequence (.completed result)) }
  | .groupSeal p' => if p' = p then { r with sealed := true } else r
  | .groupTest _ => r
  | .groupReset p' _ _ => if p' = p then ⟨[], false⟩ else r

/-- The fabric and the history of group `p` after one more call. -/
def Fabric.step (p : Nat) (fr : Fabric ι × Roster ι) (c : GroupCall ι) : Fabric ι × Roster ι :=
  let out := fr.1.call c
  (out.2, if out.1 = .success then fr.2.record p c else fr.2)

def Fabric.run (p : Nat) (f : Fabric ι) (calls : List (GroupCall ι)) : Fabric ι × Roster ι :=
  calls.foldl (Fabric.step p) (f, ⟨[], false⟩)

end

/-! ## Pending entries of a group -/

def RefersTo (p : Nat) (e : CompletionEntry) : Prop := e.state = .pending ∧ e.releaseGroup = some p

instance (p : Nat) : DecidablePred (RefersTo p) := fun _ => inferInstanceAs (Decidable (_ ∧ _))

def pendingOn (p : Nat) (sb : CompletionScoreboard) : Nat := occupied (RefersTo p) sb.capacity.toNat sb.entries

/-- Some pending entry of this sequence references the group. -/
def Waits (p : Nat) (sb : CompletionScoreboard) (q : UInt64) : Prop :=
  ∃ j < sb.capacity.toNat, RefersTo p (sb.entries j) ∧ (sb.entries j).context.sequence = q

/-! ## One board -/

variable {e : CompletionEntry}

section Board
variable {p : Nat} {sb sb' : CompletionScoreboard}

theorem waits_split {k : Nat} (hk : k < sb.capacity.toNat) (q : UInt64) :
    Waits p sb q ↔ (RefersTo p (sb.entries k) ∧ (sb.entries k).context.sequence = q) ∨
      ∃ j < sb.capacity.toNat, j ≠ k ∧ RefersTo p (sb.entries j) ∧ (sb.entries j).context.sequence = q := by
  constructor
  · rintro ⟨j, hj, hr, hq⟩
    by_cases hjk : j = k
    · subst hjk
      exact .inl ⟨hr, hq⟩
    · exact .inr ⟨j, hj, hjk, hr, hq⟩
  · rintro (⟨hr, hq⟩ | ⟨j, hj, -, hr, hq⟩)
    · exact ⟨k, hk, hr, hq⟩
    · exact ⟨j, hj, hr, hq⟩

theorem waits_write (sb sb' : CompletionScoreboard) {k : Nat} (hk : k < sb.capacity.toNat) (hcap : sb'.capacity = sb.capacity)
    (hent : sb'.entries = update sb.entries k e) (q : UInt64) :
    Waits p sb' q ↔ (RefersTo p e ∧ e.context.sequence = q) ∨
      ∃ j < sb.capacity.toNat, j ≠ k ∧ RefersTo p (sb.entries j) ∧ (sb.entries j).context.sequence = q := by
  rw [waits_split (k := k) (by rw [hcap]; exact hk), hent, update_self, hcap]
  refine or_congr_right (exists_congr fun j => and_congr_right fun _ => and_congr_right fun hjk => ?_)
  rw [update_of_ne hjk]

variable {context : SubmitContext}

section

variable (h : sb.Shape) (g : Option Nat) (hfree : (sb.entryAt context.sequence).state = .free)
include h g hfree

theorem CompletionScoreboard.Shape.waits_submit (q : UInt64) :
    Waits p (sb.submitEntry context g) q ↔ Waits p sb q ∨ (g = some p ∧ context.sequence = q) := by
  have hk := slot_lt h.capacity_pos context.sequence
  have hno : ¬ RefersTo p (sb.entries (sb.slot context.sequence)) := by
    intro hr
    exact absurd (hfree.symm.trans hr.1) (by simp)
  rw [waits_write sb (sb.submitEntry context g) hk rfl rfl, waits_split hk]
  have hnew : RefersTo p ⟨context, g, .success, .pending⟩ ↔ g = some p := and_iff_right rfl
  rw [hnew, or_iff_right (a := RefersTo p _ ∧ _) (fun hr => hno hr.1)]
  exact or_comm

theorem CompletionScoreboard.Shape.pendingOn_submit :
    pendingOn p (sb.submitEntry context g) = pendingOn p sb + if g = some p then 1 else 0 := by
  have hk := slot_lt h.capacity_pos context.sequence
  have hno : ¬ RefersTo p (sb.entries (sb.slot context.sequence)) := by
    intro hr
    exact absurd (hfree.symm.trans hr.1) (by simp)
  by_cases hg : g = some p
  · rw [if_pos hg]
    exact occupied_update_fill (RefersTo p) hk hno ⟨rfl, hg⟩
  · rw [if_neg hg]
    exact occupied_update_same (RefersTo p) (iff_of_false hno fun hr => hg hr.2)

end

variable {q : UInt64}

theorem CompletionScoreboard.Shape.waits_settle (h : sb.Shape)
    (hp : (sb.entryAt q).state = .pending) (hq : (sb.entryAt q).context.sequence = q)
    (he : e.state ≠ .pending) (hcap : sb'.capacity = sb.capacity)
    (hent : sb'.entries = update sb.entries (sb.slot q) e) (r : UInt64) :
    Waits p sb' r ↔ Waits p sb r ∧ r ≠ q := by
  have hk := slot_lt h.capacity_pos q
  rw [waits_write sb sb' hk hcap hent, waits_split hk]
  constructor
  · rintro (⟨hr, -⟩ | ⟨j, hj, hjk, hr, rfl⟩)
    · exact absurd hr.1 he
    · refine ⟨.inr ⟨j, hj, hjk, hr, rfl⟩, fun hrq => hjk ?_⟩
      -- two occupied slots of one sequence are one slot
      have ho : Occupied (sb.entries j) := by simp [Occupied, hr.1]
      have ho' : Occupied (sb.entries (sb.slot q)) := fun hf => by simp [entryAt, hf] at hp
      exact h.sequence_inj hj hk ho ho' (hrq.trans hq.symm)
  · rintro ⟨⟨-, hr⟩ | hr, hne⟩
    · exact absurd (hr.symm.trans hq) hne
    · exact .inr hr

theorem CompletionScoreboard.Shape.pendingOn_settle (h : sb.Shape)
    (hp : (sb.entryAt q).state = .pending) (he : e.state ≠ .pending) (hcap : sb'.capacity = sb.capacity)
    (hent : sb'.entries = update sb.entries (sb.slot q) e) :
    pendingOn p sb' + (if (sb.entryAt q).releaseGroup = some p then 1 else 0) = pendingOn p sb := by
  have hk := slot_lt h.capacity_pos q
  have hno : ¬ RefersTo p e := fun hr => he hr.1
  rw [pendingOn, hent, hcap]
  by_cases hg : (sb.entryAt q).releaseGroup = some p
  · rw [if_pos hg]
    exact occupied_update_free (RefersTo p) hk ⟨hp, hg⟩ hno
  · rw [if_neg hg]
    exact occupied_update_same (RefersTo p) (iff_of_false (fun hr => hg hr.2) hno)

theorem pendingOn_pos (h : Waits p sb q) : 0 < pendingOn p sb := by
  obtain ⟨j, hj, hr, -⟩ := h
  exact occupied_pos (RefersTo p) hj hr

theorem pendingOn_eq_zero : pendingOn p sb = 0 ↔ ∀ q, ¬ Waits p sb q := by
  constructor
  · intro h q hq
    have := pendingOn_pos hq
    omega
  · intro h
    rw [pendingOn, occupied, Finset.card_eq_zero, Finset.filter_eq_empty_iff]
    intro j hj hr
    exact h _ ⟨j, Finset.mem_range.1 hj, hr, rfl⟩

theorem waits_entryAt (h : sb.Shape) (hp : namesPending sb context) :
    Waits p sb context.sequence ↔ (sb.entryAt context.sequence).releaseGroup = some p := by
  have hk := slot_lt h.capacity_pos context.sequence
  constructor
  · rintro ⟨j, hj, hr, hq⟩
    have ho : Occupied (sb.entries j) := by simp [Occupied, hr.1]
    have hjk : j = sb.slot context.sequence := h.sequence_inj hj hk ho hp.occupied (hq.trans hp.sequence.symm)
    subst hjk
    exact hr.2
  · intro hg
    exact ⟨_, hk, ⟨hp.pending, hg⟩, hp.sequence⟩

def SamePending (sb sb' : CompletionScoreboard) : Prop :=
  sb'.capacity = sb.capacity ∧
    ∀ j, (sb'.entries j).state = .pending ∨ (sb.entries j).state = .pending → sb'.entries j = sb.entries j

theorem SamePending.refersTo (h : SamePending sb sb') (j : Nat) :
    RefersTo p (sb'.entries j) ↔ RefersTo p (sb.entries j) := by
  constructor
  · intro hr
    rwa [h.2 j (.inl hr.1)] at hr
  · intro hr
    rwa [h.2 j (.inr hr.1)]

theorem SamePending.pendingOn (h : SamePending sb sb') : pendingOn p sb' = pendingOn p sb := by
  unfold Net.pendingOn occupied
  rw [h.1]
  exact congrArg Finset.card (Finset.filter_congr fun j _ => h.refersTo j)

theorem SamePending.waits (h : SamePending sb sb') (q : UInt64) : Waits p sb' q ↔ Waits p sb q := by
  unfold Waits
  rw [h.1]
  refine exists_congr fun j => and_congr_right fun _ => ?_
  constructor
  · rintro ⟨hr, hq⟩
    exact ⟨(h.refersTo j).1 hr, by rw [← h.2 j (.inl hr.1)]; exact hq⟩
  · rintro ⟨hr, hq⟩
    exact ⟨(h.refersTo j).2 hr, by rw [h.2 j (.inr hr.1)]; exact hq⟩

theorem samePending_retireHead (hc : sb.headComplete) : SamePending sb sb.retireHead := by
  refine ⟨rfl, fun j hj => ?_⟩
  by_cases hs : j = sb.slot sb.nextSequence
  · subst hs
    have hold : (sb.entries (sb.slot sb.nextSequence)).state = .complete := hc.1
    have hnew : sb.retireHead.entries (sb.slot sb.nextSequence) = completionEntryReset := update_self ..
    simp [hold, hnew, completionEntryReset] at hj
  · exact update_of_ne hs _ _

theorem CompletionScoreboard.Shape.retire_keeps (n : Nat) (h : sb.Shape) (advanced : Nat) :
    (sb.retire n advanced).1.Shape ∧ SamePending sb (sb.retire n advanced).1 := by
  induction n generalizing sb advanced with
  | zero => exact ⟨h, rfl, fun _ _ => rfl⟩
  | succ n ih =>
    by_cases hc : sb.headComplete
    · obtain ⟨hs, hcap, hsame⟩ := ih (h.retireHead hc) (advanced + 1)
      have hhead := samePending_retireHead hc
      simp only [CompletionScoreboard.retire, hc, if_true]
      refine ⟨hs, hcap.trans hhead.1, fun j hj => ?_⟩
      rcases hj with hj | hj
      · have he := hsame j (.inl hj)
        rw [he] at hj ⊢
        exact hhead.2 j (.inl hj)
      · have he := hhead.2 j (.inr hj)
        rw [← he] at hj ⊢
        exact hsame j (.inr hj)
    · simp only [CompletionScoreboard.retire, hc, if_false]
      exact ⟨h, rfl, fun _ _ => rfl⟩

end Board

/-! ## One group -/

/-- The group agrees with its history: `n` submissions are pending, `clean` says that none of the completed ones failed. -/
structure Gate (group : ReleaseGroup) (n : Nat) (clean : Prop) (isSealed : Bool) : Prop where
  ident : group.groupId ≠ 0
  pending : group.pending.toNat = n
  first : group.firstError = .success ↔ clean
  shut : isSealed = true ↔ group.state ≠ .opened
  closed : group.state = .complete ↔ isSealed = true ∧ n = 0
  allowed : group.state = .complete → group.releaseAllowed = decide (group.firstError = .success)

variable {groupId generation : UInt64} {result : Result}

section Gate
variable {group : ReleaseGroup} {n : Nat} {clean : Prop} {isSealed : Bool}

theorem gate_init (h : releaseGroupInit groupId generation = .ok group) : Gate group 0 True false := by
  unfold releaseGroupInit at h
  split_ifs at h with hid
  obtain rfl := Except.ok.inj h
  exact ⟨hid, rfl, by simp, by simp, by simp, by simp⟩

theorem toNat_succ {a : UInt32} (h : a ≠ uint32Max) : (a + 1).toNat = a.toNat + 1 := by
  have hlt := a.toNat_lt
  have hne : a.toNat ≠ 2 ^ 32 - 1 := fun he => h (UInt32.toNat_inj.1 (by rw [he]; rfl))
  rw [UInt32.toNat_add, UInt32.toNat_one]
  omega

theorem toNat_pred {a : UInt32} (h : a ≠ 0) : (a - 1).toNat + 1 = a.toNat := by
  have hpos : a.toNat ≠ 0 := fun he => h (UInt32.toNat_inj.1 he)
  have hle : (1 : UInt32) ≤ a := by
    rw [UInt32.le_iff_toNat_le, UInt32.toNat_one]
    omega
  rw [UInt32.toNat_sub_of_le _ _ hle, UInt32.toNat_one]
  omega

theorem Gate.track (h : Gate group n clean isSealed) {context : SubmitContext}
    (hs : (releaseGroupTrackLocked group context).1 = .success) :
    Gate (releaseGroupTrackLocked group context).2 (n + 1) clean isSealed ∧
      (releaseGroupTrackLocked group context).2.generation = group.generation ∧
      context.generation = group.generation := by
  unfold releaseGroupTrackLocked at hs ⊢
  split_ifs at hs ⊢ with hc
  push Not at hc
  obtain ⟨hopen, -, hgen, hmax, -⟩ := hc
  have hseal : isSealed = false := by
    cases isSealed with
    | false => rfl
    | true => exact absurd hopen (h.shut.1 rfl)
  refine ⟨⟨h.ident, ?_, h.first, h.shut, ?_, h.allowed⟩, rfl, hgen.symm⟩
  · rw [toNat_succ hmax, h.pending]
  · simp [hopen, hseal]

theorem Gate.cancel (h : Gate group (n + 1) clean isSealed) (hopen : group.state = .opened) :
    Gate { group with pending := group.pending - 1, members := group.members - 1 } n clean isSealed := by
  have hne : group.pending ≠ 0 := by
    intro hz
    have := h.pending
    rw [hz] at this
    simp at this
  have hseal : isSealed = false := by
    cases isSealed with
    | false => rfl
    | true => exact absurd hopen (h.shut.1 rfl)
  refine ⟨h.ident, ?_, h.first, h.shut, ?_, h.allowed⟩
  · change (group.pending - 1).toNat = n
    have := toNat_pred hne
    have := h.pending
    omega
  · simp [hopen, hseal]

theorem releaseGroupCompleteLocked_generation (group : ReleaseGroup) (result : Result) :
    (releaseGroupCompleteLocked group result).2.generation = group.generation := by
  unfold releaseGroupCompleteLocked
  dsimp only
  split
  · rfl
  · split <;> rfl

theorem Gate.complete (h : Gate group (n + 1) clean isSealed) (hs : (releaseGroupCompleteLocked group result).1 = .success) :
    Gate (releaseGroupCompleteLocked group result).2 n (clean ∧ result = .success) isSealed := by
  unfold releaseGroupCompleteLocked at hs ⊢
  by_cases hc : group.state = .complete ∨ group.pending = 0
  · rw [if_pos hc] at hs
    exact absurd hs (by simp)
  rw [if_neg hc]
  push Not at hc
  have hpred : (group.pending - 1).toNat = n := by
    have := toNat_pred hc.2
    have := h.pending
    omega
  have hzero : group.pending - 1 = 0 ↔ n = 0 := by
    rw [← UInt32.toNat_inj, hpred]
    rfl
  have hfirst : (if result ≠ .success ∧ group.firstError = .success then result else group.firstError) = .success ↔
      clean ∧ result = .success := by
    rw [← h.first]
    by_cases hr : result = .success
    · simp [hr]
    · by_cases hf : group.firstError = .success
      · simp [hr, hf]
      · simp [hr, hf]
  by_cases hd : group.pending - 1 = 0 ∧ group.state = .sealed
  · rw [if_pos hd]
    have hseal : isSealed = true := h.shut.2 (by simp [hd.2])
    exact ⟨h.ident, hpred, hfirst, by simp [hseal], by simp [hseal, hzero.1 hd.1], fun _ => rfl⟩
  · rw [if_neg hd]
    refine ⟨h.ident, hpred, hfirst, h.shut, ?_, fun hcomp => absurd hcomp hc.1⟩
    -- a sealed group whose last member completes takes the other branch
    refine iff_of_false hc.1 ?_
    rintro ⟨hseal, hn⟩
    have hopen := h.shut.1 hseal
    refine hd ⟨hzero.2 hn, ?_⟩
    cases hst : group.state with
    | opened => exact absurd hst hopen
    | sealed => rfl
    | complete => exact absurd hst hc.1

theorem Gate.seal (h : Gate group n clean isSealed) (hs : (releaseGroupSeal group).1 = .success) :
    Gate (releaseGroupSeal group).2 n clean true ∧ (releaseGroupSeal group).2.generation = group.generation := by
  unfold releaseGroupSeal at hs ⊢
  split_ifs at hs ⊢ with h0 h1 h2
  · have hn : n = 0 := by rw [← h.pending, h2]; rfl
    exact ⟨⟨h.ident, h.pending, h.first, by simp, by simp [hn], fun _ => rfl⟩, rfl⟩
  · have hn : n ≠ 0 := fun hn => h2 (UInt32.toNat_inj.1 (h.pending.trans hn))
    exact ⟨⟨h.ident, h.pending, h.first, by simp, by simp [hn], by simp⟩, rfl⟩

theorem releaseGroupSeal_failed (hs : (releaseGroupSeal group).1 ≠ .success) : (releaseGroupSeal group).2 = group := by
  unfold releaseGroupSeal at hs ⊢
  split_ifs at hs ⊢ with h0 h1 h2
  · rfl
  · rfl
  · exact absurd rfl hs
  · exact absurd rfl hs

theorem releaseGroupReset_cases (group : ReleaseGroup) (groupId generation : UInt64) :
    ((releaseGroupReset group groupId generation).1 ≠ .success ∧ (releaseGroupReset group groupId generation).2 = group) ∨
    ((releaseGroupReset group groupId generation).1 = .success ∧ group.state = .complete ∧
      group.generation < generation ∧ (releaseGroupReset group groupId generation).2.generation = generation ∧
      Gate (releaseGroupReset group groupId generation).2 0 True false) := by
  unfold releaseGroupReset
  split_ifs with h0 h1
  · simp
  · simp
  · push Not at h0 h1
    exact .inr ⟨rfl, h1.1, UInt64.not_le.1 h1.2, rfl, h0.2, rfl, by simp, by simp, by simp, by simp⟩

theorem Gate.test (h : Gate group n clean isSealed) :
    ((releaseGroupTest group).done = true ↔ isSealed = true ∧ n = 0) ∧
    ((releaseGroupTest group).done = true ∧ (releaseGroupTest group).releaseAllowed = true ↔
      isSealed = true ∧ n = 0 ∧ clean) := by
  unfold releaseGroupTest
  rw [if_neg h.ident]
  by_cases hc : group.state = .complete
  · have hsn := h.closed.1 hc
    simp [hc, hsn, h.allowed hc, h.first]
  · have hsn : ¬ (isSealed = true ∧ n = 0) := fun hsn => hc (h.closed.2 hsn)
    rw [if_neg hc]
    refine ⟨by simpa using hsn, ?_⟩
    constructor
    · rintro ⟨hd, -⟩
      exact absurd hd (by simp)
    · rintro ⟨hs, hn, -⟩
      exact absurd ⟨hs, hn⟩ hsn

end Gate

/-! ## What a call does to a group -/

section Calls
variable {t : Tracker} {context : SubmitContext} {p : Nat}

theorem trackSubmit_group {g : Option Nat} (hs : (trackSubmit t context g).1 = .success) :
    if g = some p then
      (releaseGroupTrackLocked (t.groups p) context).1 = .success ∧
        (trackSubmit t context g).2.groups p = (releaseGroupTrackLocked (t.groups p) context).2
    else (trackSubmit t context g).2.groups p = t.groups p := by
  unfold trackSubmit at hs ⊢
  cases g with
  | none =>
    simp only [reduceCtorEq, if_false]
    split_ifs <;> rfl
  | some p' =>
    by_cases hp : p' = p
    · subst hp
      rw [if_pos rfl]
      dsimp only at hs ⊢
      split_ifs at hs ⊢ with h1 h2 h3 h4 h5 h6
      · exact ⟨h6, update_self ..⟩
      · exact absurd hs h6
    · rw [if_neg (by simpa using hp)]
      dsimp only
      split_ifs <;> simp [update_of_ne (Ne.symm hp)]

theorem trackCancel_group (hs : (trackCancel t context).1 = .success) :
    if (t.scoreboard.entryAt context.sequence).releaseGroup = some p then
      (t.groups p).state = .opened ∧ (trackCancel t context).2.groups p =
        { t.groups p with pending := (t.groups p).pending - 1, members := (t.groups p).members - 1 }
    else (trackCancel t context).2.groups p = t.groups p := by
  unfold trackCancel at hs ⊢
  by_cases h1 : namesPending t.scoreboard context
  swap
  · rw [if_pos h1] at hs
    exact absurd hs (by simp)
  simp only [h1, not_true, if_false] at hs ⊢
  cases hg : (t.scoreboard.entryAt context.sequence).releaseGroup with
  | none => simp
  | some p' =>
    simp only [hg] at hs ⊢
    by_cases h2 : (t.groups p').state ≠ .opened ∨ (t.groups p').pending = 0 ∨ (t.groups p').members = 0
    · rw [if_pos h2] at hs
      exact absurd hs (by simp)
    rw [if_neg h2]
    push Not at h2
    by_cases hp : p' = p
    · subst hp
      simp [h2.1]
    · rw [if_neg (by simpa using hp)]
      exact update_of_ne (Ne.symm hp) _ _

theorem trackCompletion_group (hs : (trackCompletion t context result).1 = .success) (hr : result ≠ .inProgress) :
    if (t.scoreboard.entryAt context.sequence).releaseGroup = some p then
      (releaseGroupCompleteLocked (t.groups p) result).1 = .success ∧
        (trackCompletion t context result).2.2.groups p = (releaseGroupCompleteLocked (t.groups p) result).2
    else (trackCompletion t context result).2.2.groups p = t.groups p := by
  unfold trackCompletion at hs ⊢
  by_cases h1 : namesPending t.scoreboard context
  swap
  · rw [if_pos h1] at hs
    exact absurd hs (by simp)
  simp only [h1, not_true, if_false, hr] at hs ⊢
  cases hg : (t.scoreboard.entryAt context.sequence).releaseGroup with
  | none => simp
  | some p' =>
    simp only [hg] at hs ⊢
    by_cases h2 : (releaseGroupCompleteLocked (t.groups p') result).1 = .success
    swap
    · rw [if_pos h2] at hs
      exact absurd hs h2
    simp only [h2, ne_eq, not_true, if_false, Option.some.injEq]
    by_cases hp : p' = p
    · subst hp
      simp [h2]
    · rw [if_neg hp]
      exact update_of_ne (Ne.symm hp) _ _

end Calls

/-! ## The roster -/

section Roster
variable {ι : Type}

def Roster.Pending (r : Roster ι) (i : ι) (q : UInt64) : Prop :=
  ∃ m ∈ r.members, m.board = i ∧ m.sequence = q ∧ m.standing = .pending

/-- No completed member failed. -/
def Roster.Clean (r : Roster ι) : Prop := ∀ m ∈ r.members, ∀ result, m.standing = .completed result → result = .success

theorem pending_append (r : Roster ι) (i : ι) (q : UInt64) (k : ι) (q' : UInt64) :
    Roster.Pending { r with members := r.members ++ [⟨i, q, .pending⟩] } k q' ↔ r.Pending k q' ∨ (i = k ∧ q = q') := by
  simp [Roster.Pending, or_and_right, exists_or]

theorem clean_append (r : Roster ι) (i : ι) (q : UInt64) :
    Roster.Clean { r with members := r.members ++ [⟨i, q, .pending⟩] } ↔ r.Clean := by
  simp [Roster.Clean, or_imp, forall_and]

variable [DecidableEq ι]

theorem pending_settle (r : Roster ι) (i : ι) (q : UInt64) {standing : Standing} (hs : standing ≠ .pending) (k : ι)
    (q' : UInt64) :
    Roster.Pending { r with members := r.members.map (Member.settle i q standing) } k q' ↔
      r.Pending k q' ∧ ¬ (k = i ∧ q' = q) := by
  simp only [Roster.Pending, mem_map, exists_exists_and_eq_and]
  constructor
  · rintro ⟨m, hm, hk⟩
    by_cases hc : m.board = i ∧ m.sequence = q ∧ m.standing = .pending
    · rw [Member.settle, if_pos hc] at hk
      exact absurd hk.2.2 hs
    · rw [Member.settle, if_neg hc] at hk
      refine ⟨⟨m, hm, hk⟩, ?_⟩
      rintro ⟨rfl, rfl⟩
      exact hc hk
  · rintro ⟨⟨m, hm, hk⟩, hne⟩
    refine ⟨m, hm, ?_⟩
    have hc : ¬ (m.board = i ∧ m.sequence = q ∧ m.standing = .pending) := by
      rintro ⟨hb, hq, -⟩
      exact hne ⟨hk.1.symm.trans hb, hk.2.1.symm.trans hq⟩
    rw [Member.settle, if_neg hc]
    exact hk

theorem clean_settle (r : Roster ι) (i : ι) (q : UInt64) (standing : Standing) :
    Roster.Clean { r with members := r.members.map (Member.settle i q standing) } ↔
      r.Clean ∧ (r.Pending i q → ∀ result, standing = .completed result → result = .success) := by
  simp only [Roster.Clean, Roster.Pending, forall_mem_map]
  constructor
  · intro h
    constructor
    · intro m hm result hres
      have hc : ¬ (m.board = i ∧ m.sequence = q ∧ m.standing = .pending) := by simp [hres]
      have hmem := h m hm result
      rw [Member.settle, if_neg hc] at hmem
      exact hmem hres
    · rintro ⟨m, hm, hc⟩ result hres
      have hmem := h m hm result
      rw [Member.settle, if_pos hc] at hmem
      exact hmem hres
  · rintro ⟨hclean, hpend⟩ m hm result hres
    by_cases hc : m.board = i ∧ m.sequence = q ∧ m.standing = .pending
    · rw [Member.settle, if_pos hc] at hres
      exact hpend ⟨m, hm, hc⟩ result hres
    · rw [Member.settle, if_neg hc] at hres
      exact hclean m hm result hres

theorem record_submit (p : Nat) (r : Roster ι) (i : ι) (context : SubmitContext) (g : Option Nat) :
    r.record p (.submit i context g) =
      if g = some p then { r with members := r.members ++ [⟨i, context.sequence, .pending⟩] } else r := by
  cases g with
  | none => rfl
  | some p' => simp [Roster.record]

end Roster

/-! ## Failed calls and complete groups -/

section Complete
variable {ι : Type} [DecidableEq ι] {p : Nat} {f : Fabric ι} {r : Roster ι}

theorem call_failed {c : GroupCall ι} (hs : (f.call c).1 ≠ .success) : (f.call c).2 = f := by
  have hboard : ∀ i, f.onBoard i ⟨f.boards i, f.groups⟩ = f := by
    intro i
    simp [Fabric.onBoard]
  have hgroup : ∀ p, f.onGroup p (f.groups p) = f := by
    intro p
    simp [Fabric.onGroup]
  cases c with
  | submit i context g =>
    rcases trackSubmit_cases ⟨f.boards i, f.groups⟩ context g with ⟨-, he⟩ | ⟨ho, -⟩
    · simp [Fabric.call, he, hboard]
    · exact absurd ho hs
  | cancel i context =>
    rcases trackCancel_cases ⟨f.boards i, f.groups⟩ context with ⟨-, he⟩ | ⟨ho, -⟩
    · simp [Fabric.call, he, hboard]
    · exact absurd ho hs
  | completion i context result =>
    rcases trackCompletion_cases ⟨f.boards i, f.groups⟩ context result with ⟨-, he⟩ | ⟨ho, -⟩ | ⟨ho, -⟩
    · simp [Fabric.call, he, hboard]
    · exact absurd (congrArg Prod.fst ho) hs
    · exact absurd ho hs
  | groupSeal p => simp [Fabric.call, releaseGroupSeal_failed hs, hgroup]
  | groupTest p => rfl
  | groupReset p groupId generation =>
    rcases releaseGroupReset_cases (f.groups p) groupId generation with ⟨-, he⟩ | ⟨ho, -⟩
    · simp [Fabric.call, he, hgroup]
    · exact absurd ho hs

theorem complete_stays (hc : (f.groups p).state = .complete) {c : GroupCall ι}
    (hreset : ∀ groupId generation, c = .groupReset p groupId generation → generation ≤ (f.groups p).generation) :
    (f.call c).2.groups p = f.groups p := by
  by_cases hs : (f.call c).1 = .success
  swap
  · rw [call_failed hs]
  cases c with
  | submit i context g =>
    have hgroup := trackSubmit_group (p := p) hs
    split_ifs at hgroup
    · exact absurd hgroup.1 (by simp [releaseGroupTrackLocked, hc])
    · exact hgroup
  | cancel i context =>
    have hgroup := trackCancel_group (p := p) hs
    split_ifs at hgroup
    · exact absurd (hc.symm.trans hgroup.1) (by simp)
    · exact hgroup
  | completion i context result =>
    by_cases hr : result = .inProgress
    · rcases trackCompletion_cases ⟨f.boards i, f.groups⟩ context result with ⟨hf, -⟩ | ⟨he, -⟩ | ⟨-, hi, -⟩
      · exact absurd hs hf
      · simp [Fabric.call, Fabric.onBoard, he]
      · exact absurd hr hi
    · have hgroup := trackCompletion_group (p := p) hs hr
      split_ifs at hgroup
      · exact absurd hgroup.1 (by simp [releaseGroupCompleteLocked, hc])
      · exact hgroup
  | groupSeal p' =>
    by_cases hp : p' = p
    · subst hp
      exact absurd hs (by simp [Fabric.call, releaseGroupSeal, hc])
    · exact update_of_ne (Ne.symm hp) _ _
  | groupTest p' => rfl
  | groupReset p' groupId generation =>
    by_cases hp : p' = p
    · subst hp
      have hle := hreset groupId generation rfl
      rcases releaseGroupReset_cases (f.groups p') groupId generation with ⟨hf, -⟩ | ⟨-, -, hlt, -⟩
      · exact absurd hs hf
      · exact absurd hlt (UInt64.not_lt.2 hle)
    · exact update_of_ne (Ne.symm hp) _ _

theorem complete_stays_run (hc : (f.groups p).state = .complete) {calls : List (GroupCall ι)}
    (hreset : ∀ groupId generation, .groupReset p groupId generation ∈ calls → generation ≤ (f.groups p).generation) :
    (calls.foldl (Fabric.step p) (f, r)).1.groups p = f.groups p := by
  induction calls generalizing f r with
  | nil => rfl
  | cons c cs ih =>
    have hstay : (f.call c).2.groups p = f.groups p := by
      refine complete_stays hc fun groupId generation he => hreset groupId generation ?_
      rw [he]
      exact mem_cons_self
    have hrest := ih (f := (f.call c).2) (r := (Fabric.step p (f, r) c).2) (by rw [hstay]; exact hc)
      fun groupId generation hm => by rw [hstay]; exact hreset groupId generation (mem_cons_of_mem c hm)
    exact hrest.trans hstay

end Complete

/-! ## The books of a group -/

section Ledgered
variable {ι : Type} [Fintype ι]

/-- The group `p` agrees with its roster and with the pending entries that reference it. -/
structure Ledgered (p : Nat) (f : Fabric ι) (r : Roster ι) : Prop where
  shape : ∀ i, (f.boards i).Shape
  roster : ∀ i q, r.Pending i q ↔ Waits p (f.boards i) q
  generation : ∀ i, ∀ j < (f.boards i).capacity.toNat, RefersTo p ((f.boards i).entries j) →
    ((f.boards i).entries j).context.generation = (f.groups p).generation
  gate : Gate (f.groups p) (∑ i, pendingOn p (f.boards i)) r.Clean r.sealed

variable {p : Nat} {f : Fabric ι} {r r' : Roster ι}

theorem Ledgered.onGroup (h : Ledgered p f r) {group : ReleaseGroup}
    (hgen : group.generation = (f.groups p).generation) (hroster : ∀ i q, r'.Pending i q ↔ r.Pending i q)
    (hgate : Gate group (∑ i, pendingOn p (f.boards i)) r'.Clean r'.sealed) : Ledgered p (f.onGroup p group) r' := by
  have hself : (f.onGroup p group).groups p = group := update_self ..
  refine ⟨h.shape, fun i q => (hroster i q).trans (h.roster i q), ?_, ?_⟩
  · rw [hself, hgen]
    exact h.generation
  · rw [hself]
    exact hgate

theorem Ledgered.otherGroup (h : Ledgered p f r) {p' : Nat} (hp : p' ≠ p) (group : ReleaseGroup) :
    Ledgered p (f.onGroup p' group) r := by
  have hne : (f.onGroup p' group).groups p = f.groups p := update_of_ne (Ne.symm hp) _ _
  refine ⟨h.shape, h.roster, ?_, ?_⟩
  · rw [hne]
    exact h.generation
  · rw [hne]
    exact h.gate

theorem ledgered_init (hboards : ∀ i, ∃ capacity generation initial,
      CompletionScoreboard.init capacity generation initial = .ok (f.boards i))
    (hgroup : releaseGroupInit groupId generation = .ok (f.groups p)) : Ledgered p f ⟨[], false⟩ := by
  have hfree : ∀ i j, ¬ RefersTo p ((f.boards i).entries j) := by
    intro i j hr
    obtain ⟨capacity, generation, initial, hinit⟩ := hboards i
    unfold CompletionScoreboard.init at hinit
    split_ifs at hinit
    rw [← Except.ok.inj hinit] at hr
    exact absurd hr.1 (by simp [completionEntryReset])
  have hzero : ∀ i, pendingOn p (f.boards i) = 0 := by
    intro i
    apply pendingOn_eq_zero.2
    rintro q ⟨j, -, hr, -⟩
    exact hfree i j hr
  have hclean : Roster.Clean (⟨[], false⟩ : Roster ι) = True := by simp [Roster.Clean]
  refine ⟨?_, ?_, fun i j _ hr => absurd hr (hfree i j), ?_⟩
  · intro i
    obtain ⟨capacity, generation, initial, hinit⟩ := hboards i
    exact (recorded_init hinit).ledger.shape
  · intro i q
    refine iff_of_false ?_ (pendingOn_eq_zero.1 (hzero i) q)
    rintro ⟨m, hm, -⟩
    exact absurd hm not_mem_nil
  · rw [hclean]
    simpa [hzero] using gate_init hgroup

variable [DecidableEq ι]

variable {i : ι}

theorem Ledgered.onBoard (h : Ledgered p f r) {out : Tracker} (hshape : out.scoreboard.Shape)
    (hroster : ∀ k q, r'.Pending k q ↔ if k = i then Waits p out.scoreboard q else r.Pending k q)
    (hgen : (out.groups p).generation = (f.groups p).generation)
    (hnew : ∀ j < out.scoreboard.capacity.toNat, RefersTo p (out.scoreboard.entries j) →
      (out.scoreboard.entries j).context.generation = (out.groups p).generation)
    (hgate : ∀ n, n + pendingOn p (f.boards i) = ∑ k, pendingOn p (f.boards k) + pendingOn p out.scoreboard →
      Gate (out.groups p) n r'.Clean r'.sealed) : Ledgered p (f.onBoard i out) r' := by
  have hboards : ∀ k, (f.onBoard i out).boards k = if k = i then out.scoreboard else f.boards k := by
    intro k
    simp [Fabric.onBoard, update_apply]
  refine ⟨?_, ?_, ?_, hgate _ (sum_update (pendingOn p) f.boards i out.scoreboard)⟩
  · intro k
    rw [hboards]
    split_ifs
    · exact hshape
    · exact h.shape k
  · intro k q
    rw [hroster, hboards]
    split_ifs
    · rfl
    · exact h.roster k q
  · intro k j
    rw [hboards]
    split_ifs
    · exact hnew j
    · intro hj hr
      exact (h.generation k j hj hr).trans hgen.symm

variable {context : SubmitContext}

section

variable (h : Ledgered p f r)
include h

theorem Ledgered.submit {g : Option Nat} (hs : (trackSubmit ⟨f.boards i, f.groups⟩ context g).1 = .success) :
    Ledgered p (f.onBoard i (trackSubmit ⟨f.boards i, f.groups⟩ context g).2) (r.record p (.submit i context g)) := by
  rcases trackSubmit_cases ⟨f.boards i, f.groups⟩ context g with ⟨hf, -⟩ | ⟨-, hmax, hgen, hlow, hhigh, hfree, he⟩
  · exact absurd hs hf
  have hgroup := trackSubmit_group (p := p) hs
  have hshape := (h.shape i).submitEntry g hmax hgen hlow (toNat_lt_of_sub_lt hlow hhigh) hfree
  have hcount := (h.shape i).pendingOn_submit (p := p) g hfree
  have hwaits := (h.shape i).waits_submit (p := p) g hfree
  -- the entries that reference the group are the old ones and, if it joins, the new one
  have hents : ∀ j < ((f.boards i).submitEntry context g).capacity.toNat,
      RefersTo p (((f.boards i).submitEntry context g).entries j) →
      (g = some p ∧ (((f.boards i).submitEntry context g).entries j).context = context) ∨
        (((f.boards i).submitEntry context g).entries j).context.generation = (f.groups p).generation := by
    intro j hj hr
    by_cases hjk : j = (f.boards i).slot context.sequence
    · subst hjk
      have hnew : ((f.boards i).submitEntry context g).entries ((f.boards i).slot context.sequence) =
          ⟨context, g, .success, .pending⟩ := update_self ..
      rw [hnew] at hr ⊢
      exact .inl ⟨hr.2, rfl⟩
    · have hold : ((f.boards i).submitEntry context g).entries j = (f.boards i).entries j := update_of_ne hjk _ _
      rw [hold] at hr ⊢
      exact .inr (h.generation i j hj hr)
  rw [record_submit]
  by_cases hg : g = some p
  · rw [if_pos hg] at hgroup hcount ⊢
    obtain ⟨htrack, hgen', hctx⟩ := h.gate.track hgroup.1
    refine h.onBoard ?_ ?_ ?_ ?_ ?_
    · rw [he]
      exact hshape
    · intro k q
      rw [pending_append, he, hwaits, h.roster]
      by_cases hki : k = i
      · subst hki
        simp [hg]
      · simp [hki, Ne.symm hki]
    · rw [hgroup.2]
      exact hgen'
    · rw [he, hgroup.2, hgen']
      intro j hj hr
      rcases hents j hj hr with ⟨-, hc⟩ | hc
      · rw [hc]
        exact hctx
      · exact hc
    · intro n hn
      rw [he, hcount] at hn
      have hn' : n = ∑ k, pendingOn p (f.boards k) + 1 := by omega
      have hclean := propext (clean_append r i context.sequence)
      rw [hgroup.2, hn', hclean]
      exact htrack
  · rw [if_neg hg] at hgroup hcount ⊢
    refine h.onBoard ?_ ?_ ?_ ?_ ?_
    · rw [he]
      exact hshape
    · intro k q
      rw [he, hwaits, h.roster]
      by_cases hki : k = i
      · subst hki
        simp [hg]
      · simp [hki]
    · rw [hgroup]
    · rw [he, hgroup]
      intro j hj hr
      rcases hents j hj hr with ⟨hc, -⟩ | hc
      · exact absurd hc hg
      · exact hc
    · intro n hn
      rw [he, hcount] at hn
      have hn' : n = ∑ k, pendingOn p (f.boards k) := by omega
      rw [hgroup, hn']
      exact h.gate

theorem Ledgered.settle {out : Tracker} (sb : CompletionScoreboard) {standing : Standing}
    (hp : namesPending (f.boards i) context) (hcap : sb.capacity = (f.boards i).capacity)
    (hent : sb.entries = update (f.boards i).entries ((f.boards i).slot context.sequence) e) (he : e.state ≠ .pending)
    (hsame : SamePending sb out.scoreboard) (hshape : out.scoreboard.Shape) (hstand : standing ≠ .pending)
    (hgroup : if ((f.boards i).entryAt context.sequence).releaseGroup = some p then (out.groups p).generation = (f.groups p).generation ∧ ∀ n, Gate (f.groups p) (n + 1) r.Clean r.sealed → Gate (out.groups p) n (r.Clean ∧ ∀ result, standing = .completed result → result = .success) r.sealed else out.groups p = f.groups p) :
    Ledgered p (f.onBoard i out) { r with members := r.members.map (Member.settle i context.sequence standing) } := by
  have hcount := (h.shape i).pendingOn_settle (p := p) hp.pending he hcap hent
  have hwaits := (h.shape i).waits_settle (p := p) hp.pending hp.sequence he hcap hent
  have hgen : (out.groups p).generation = (f.groups p).generation := by
    split_ifs at hgroup
    · exact hgroup.1
    · rw [hgroup]
  refine h.onBoard hshape ?_ hgen ?_ ?_
  · intro k q
    rw [pending_settle _ _ _ hstand, hsame.waits, hwaits, h.roster]
    by_cases hki : k = i
    · subst hki
      simp
    · simp [hki]
  · intro j hj hr
    have hr' := (hsame.refersTo j).1 hr
    rw [hsame.2 j (.inl hr.1), hgen]
    rw [hent] at hr' ⊢
    by_cases hjk : j = (f.boards i).slot context.sequence
    · subst hjk
      rw [update_self] at hr'
      exact absurd hr'.1 he
    · rw [update_of_ne hjk] at hr' ⊢
      rw [hsame.1, hcap] at hj
      exact h.generation i j hj hr'
  · intro n hn
    rw [hsame.pendingOn] at hn
    have hpend : r.Pending i context.sequence ↔ ((f.boards i).entryAt context.sequence).releaseGroup = some p := by
      rw [h.roster, waits_entryAt (h.shape i) hp]
    rw [propext (clean_settle r i context.sequence standing), propext hpend]
    by_cases hg : ((f.boards i).entryAt context.sequence).releaseGroup = some p
    · rw [if_pos hg] at hgroup hcount
      have hsum : ∑ k, pendingOn p (f.boards k) = n + 1 := by omega
      have hgate := h.gate
      rw [hsum] at hgate
      simpa [hg] using hgroup.2 n hgate
    · rw [if_neg hg] at hgroup hcount
      have hsum : ∑ k, pendingOn p (f.boards k) = n := by omega
      simpa [hg, hgroup, ← hsum] using h.gate

theorem Ledgered.cancel (hs : (trackCancel ⟨f.boards i, f.groups⟩ context).1 = .success) :
    Ledgered p (f.onBoard i (trackCancel ⟨f.boards i, f.groups⟩ context).2) (r.record p (.cancel i context)) := by
  rcases trackCancel_cases ⟨f.boards i, f.groups⟩ context with ⟨hf, -⟩ | ⟨-, hp, he⟩
  · exact absurd hs hf
  have hgroup := trackCancel_group (p := p) hs
  refine h.settle ((f.boards i).dropEntry context.sequence) hp rfl rfl (by simp [completionEntryReset]) ?_ ?_ (by simp) ?_
  · rw [he]
    exact ⟨rfl, fun _ _ => rfl⟩
  · rw [he]
    exact (h.shape i).dropEntry hp.occupied
  · split_ifs at hgroup ⊢
    · rw [hgroup.2]
      refine ⟨rfl, fun n hgate => ?_⟩
      simpa using hgate.cancel hgroup.1
    · exact hgroup

theorem Ledgered.completion (hs : (trackCompletion ⟨f.boards i, f.groups⟩ context result).1 = .success) :
    Ledgered p (f.onBoard i (trackCompletion ⟨f.boards i, f.groups⟩ context result).2.2)
      (r.record p (.completion i context result)) := by
  rcases trackCompletion_cases ⟨f.boards i, f.groups⟩ context result with ⟨hf, -⟩ | ⟨he, hi⟩ | ⟨-, hi, hp, -, he⟩
  · exact absurd hs hf
  · rw [he]
    simpa [Fabric.onBoard, Roster.record, hi] using h
  have hgroup := trackCompletion_group (p := p) hs hi
  obtain ⟨hshape, hsame⟩ := ((h.shape i).completeEntry result hp.occupied).retire_keeps (f.boards i).inFlight 0
  rw [Roster.record, if_neg hi]
  refine h.settle ((f.boards i).completeEntry context.sequence result) hp rfl rfl (by simp) ?_ ?_ (by simp) ?_
  · rw [he]
    exact hsame
  · rw [he]
    exact hshape
  · split_ifs at hgroup ⊢
    · rw [hgroup.2]
      refine ⟨releaseGroupCompleteLocked_generation _ _, fun n hgate => ?_⟩
      simpa using hgate.complete hgroup.1
    · exact hgroup

theorem Ledgered.seal {p' : Nat} (hs : (releaseGroupSeal (f.groups p')).1 = .success) :
    Ledgered p (f.onGroup p' (releaseGroupSeal (f.groups p')).2) (r.record p (.groupSeal p')) := by
  by_cases hp : p' = p
  · subst hp
    obtain ⟨hgate, hgen⟩ := h.gate.seal hs
    rw [Roster.record, if_pos rfl]
    exact h.onGroup hgen (fun _ _ => Iff.rfl) hgate
  · rw [Roster.record, if_neg hp]
    exact h.otherGroup hp _

theorem Ledgered.reset {p' : Nat} (hs : (releaseGroupReset (f.groups p') groupId generation).1 = .success) :
    Ledgered p (f.onGroup p' (releaseGroupReset (f.groups p') groupId generation).2)
      (r.record p (.groupReset p' groupId generation)) := by
  by_cases hp : p' = p
  swap
  · rw [Roster.record, if_neg hp]
    exact h.otherGroup hp _
  subst hp
  rcases releaseGroupReset_cases (f.groups p') groupId generation with ⟨hf, -⟩ | ⟨-, hcomp, -, -, hgate⟩
  · exact absurd hs hf
  have hzero : ∀ i, pendingOn p' (f.boards i) = 0 := by
    have hsum := (h.gate.closed.1 hcomp).2
    rw [Finset.sum_eq_zero_iff] at hsum
    intro i
    exact hsum i (Finset.mem_univ i)
  have hself : (f.onGroup p' (releaseGroupReset (f.groups p') groupId generation).2).groups p' =
      (releaseGroupReset (f.groups p') groupId generation).2 := update_self ..
  rw [Roster.record, if_pos rfl]
  refine ⟨h.shape, ?_, ?_, ?_⟩
  · intro i q
    refine iff_of_false ?_ (pendingOn_eq_zero.1 (hzero i) q)
    rintro ⟨m, hm, -⟩
    exact absurd hm not_mem_nil
  · intro i j hj hr
    exact absurd ⟨j, hj, hr, rfl⟩ (pendingOn_eq_zero.1 (hzero i) _)
  · have hclean : Roster.Clean (⟨[], false⟩ : Roster ι) = True := by simp [Roster.Clean]
    rw [hself, hclean]
    change Gate _ (∑ i, pendingOn p' (f.boards i)) True false
    simpa [hzero] using hgate

theorem Ledgered.step (c : GroupCall ι) : Ledgered p (Fabric.step p (f, r) c).1 (Fabric.step p (f, r) c).2 := by
  by_cases hs : (f.call c).1 = .success
  swap
  · simpa [Fabric.step, hs, call_failed hs] using h
  simp only [Fabric.step, hs, if_true]
  cases c with
  | submit i context g => exact h.submit hs
  | cancel i context => exact h.cancel hs
  | completion i context result => exact h.completion hs
  | groupSeal p' => exact h.seal hs
  | groupTest p' => exact h
  | groupReset p' groupId generation => exact h.reset hs

theorem Ledgered.run (calls : List (GroupCall ι)) :
    Ledgered p (calls.foldl (Fabric.step p) (f, r)).1 (calls.foldl (Fabric.step p) (f, r)).2 := by
  induction calls generalizing f r with
  | nil => exact h
  | cons c cs ih => exact ih (h.step c)

end

/-! ## The contract -/

/-- **The release group counts its pending submissions and allows the release exactly when all of them succeeded.** For
any interleaving of the calls on scoreboards and groups: the pending count, the verdict of the test, and that a verdict
stays until a reset to a larger generation. -/
theorem releaseGroup_sound (hboards : ∀ i, ∃ capacity generation initial,
      CompletionScoreboard.init capacity generation initial = .ok (f.boards i)) {groupId generation : UInt64}
    (hgroup : releaseGroupInit groupId generation = .ok (f.groups p)) (calls : List (GroupCall ι)) :
    let g := (Fabric.run p f calls).1.groups p
    let r := (Fabric.run p f calls).2
    g.pending.toNat = ∑ i, ((Finset.range ((Fabric.run p f calls).1.boards i).capacity.toNat).filter fun j =>
      RefersTo p (((Fabric.run p f calls).1.boards i).entries j) ∧
        (((Fabric.run p f calls).1.boards i).entries j).context.generation = g.generation).card ∧
    ((releaseGroupTest g).done = true ∧ (releaseGroupTest g).releaseAllowed = true ↔
      r.sealed = true ∧ (∀ m ∈ r.members, m.standing ≠ .pending) ∧
        ∀ m ∈ r.members, m.standing ≠ .cancelled → m.standing = .completed .success) ∧
    ((releaseGroupTest g).done = true → ∀ later : List (GroupCall ι),
      (∀ groupId' generation', .groupReset p groupId' generation' ∈ later → generation' ≤ g.generation) →
      releaseGroupTest ((Fabric.run p f (calls ++ later)).1.groups p) = releaseGroupTest g) := by
  intro g r
  have h : Ledgered p (Fabric.run p f calls).1 r := (ledgered_init hboards hgroup).run calls
  refine ⟨?_, ?_, ?_⟩
  · refine h.gate.pending.trans (Finset.sum_congr rfl fun i _ => ?_)
    unfold pendingOn occupied
    refine congrArg Finset.card (Finset.filter_congr fun j hj => ?_)
    exact (and_iff_left_of_imp (h.generation i j (Finset.mem_range.1 hj))).symm
  · rw [h.gate.test.2]
    refine and_congr_right fun _ => ?_
    have hnone : ∑ i, pendingOn p ((Fabric.run p f calls).1.boards i) = 0 ↔ ∀ m ∈ r.members, m.standing ≠ .pending := by
      rw [Finset.sum_eq_zero_iff]
      constructor
      · intro hz m hm hst
        refine pendingOn_eq_zero.1 (hz m.board (Finset.mem_univ _)) m.sequence ?_
        exact (h.roster _ _).1 ⟨m, hm, rfl, rfl, hst⟩
      · intro hm i _
        refine pendingOn_eq_zero.2 fun q hq => ?_
        obtain ⟨m, hmem, -, -, hst⟩ := (h.roster i q).2 hq
        exact hm m hmem hst
    rw [hnone]
    refine and_congr_right fun hpend => forall_congr' fun m => forall_congr' fun hm => ?_
    have hne := hpend m hm
    cases hst : m.standing with
    | pending => exact absurd hst hne
    | cancelled => simp
    | completed result => simp
  · intro hdone later hreset
    have hcomp : g.state = .complete := h.gate.closed.2 (h.gate.test.1.1 hdone)
    rw [Fabric.run, foldl_append]
    exact congrArg releaseGroupTest (complete_stays_run hcomp hreset)

end Ledgered

def twoBoards : Fabric Bool :=
  ⟨fun _ => ⟨fun _ => completionEntryReset, 1, 0, 1, 0, .success⟩, fun _ => ⟨7, 1, .opened, 0, 0, false, .success⟩⟩

/-- A submission on each board, the seal, the two completions: the test allows the release, and later calls leave it. -/
theorem releaseGroup_sound_two_boards :
    releaseGroupTest ((Fabric.run 0 twoBoards [.submit false ⟨0, 7, 1, 0, 0⟩ (some 0),
      .submit true ⟨0, 7, 1, 0, 0⟩ (some 0), .groupSeal 0, .completion true ⟨0, 7, 1, 0, 0⟩ .success,
      .completion false ⟨0, 7, 1, 0, 0⟩ .success]).1.groups 0) = ⟨.success, true, true⟩ ∧
    releaseGroupTest ((Fabric.run 0 twoBoards ([.submit false ⟨0, 7, 1, 0, 0⟩ (some 0),
      .submit true ⟨0, 7, 1, 0, 0⟩ (some 0), .groupSeal 0, .completion true ⟨0, 7, 1, 0, 0⟩ .success,
      .completion false ⟨0, 7, 1, 0, 0⟩ .success] ++
        [.submit true ⟨0, 7, 1, 1, 0⟩ (some 0), .groupReset 0 7 1])).1.groups 0) = ⟨.success, true, true⟩ := by
  have hinit : releaseGroupInit 7 1 = .ok (twoBoards.groups 0) := rfl
  refine ⟨by decide, ?_⟩
  rw [(releaseGroup_sound (p := 0) (f := twoBoards) (fun _ => ⟨1, 1, 0, rfl⟩) hinit _).2.2 (by decide) _ ?_]
  · decide
  · intro groupId generation hm
    simp only [mem_cons, reduceCtorEq, GroupCall.groupReset.injEq, true_and, not_mem_nil, or_false,
      false_or] at hm
    rw [hm.2]
    decide

end FlagCX.Net
