import FlagCX.Lib.Window
import FlagCX.Net.Transport

/-!
# The completion scoreboard retires every sequence once and in order

* `Shape` : the layout invariant of the slot array. Every occupied slot holds a sequence of the window
  `[nextSequence, nextSequence + capacity)` at its own residue, and `inFlight` counts the occupied slots. It is kept
  by a submission, a cancellation, a completion and one retirement (`Shape.submitEntry`, `Shape.dropEntry`,
  `Shape.completeEntry`, `Shape.retireHead`).
* `Ledger initial retired accepted sb` : `Shape`, together with what the history says of the scoreboard: which
  sequences were retired and how many completions each one had. The retirement loop moves a sequence from the
  settled entries to the retired ones (`Ledger.retireHead`, `Ledger.retire`).
* `run` : a sequence of calls, with the events it produces (`ledger_run`).
-/

namespace FlagCX.Net
open Lib List Function

variable {q : UInt64} {e : CompletionEntry} {context : SubmitContext}

namespace CompletionScoreboard

/-! ## The layout of the slot array -/

abbrev Occupied (e : CompletionEntry) : Prop := e.state ≠ .free

/-- The entry may stand at slot `i`: its sequence is one of the window and `i` is the slot of that sequence. -/
structure Placed (sb : CompletionScoreboard) (i : Nat) (e : CompletionEntry) : Prop where
  home : sb.slot e.context.sequence = i
  low : sb.nextSequence.toNat ≤ e.context.sequence.toNat
  high : e.context.sequence.toNat < sb.nextSequence.toNat + sb.capacity.toNat
  not_max : e.context.sequence ≠ uint64Max
  generation : e.context.generation = sb.generation

/-- The layout invariant of the slot array. -/
structure Shape (sb : CompletionScoreboard) : Prop where
  capacity_pos : 0 < sb.capacity.toNat
  placed : ∀ i < sb.capacity.toNat, Occupied (sb.entries i) → sb.Placed i (sb.entries i)
  count : sb.inFlight = occupied Occupied sb.capacity.toNat sb.entries

variable {sb : CompletionScoreboard}

theorem slot_lt (h : 0 < sb.capacity.toNat) (q : UInt64) : sb.slot q < sb.capacity.toNat := Nat.mod_lt _ h

section

variable (h : sb.Shape)
include h

theorem Shape.placed_entryAt (ho : Occupied (sb.entryAt q)) :
    sb.Placed (sb.slot q) (sb.entryAt q) := h.placed _ (slot_lt h.capacity_pos q) ho

theorem Shape.sequence_of_slot (hlow : sb.nextSequence.toNat ≤ q.toNat)
    (hhigh : q.toNat < sb.nextSequence.toNat + sb.capacity.toNat) (ho : Occupied (sb.entryAt q)) :
    (sb.entryAt q).context.sequence = q := by
  have hp := h.placed_entryAt ho
  exact UInt64.toNat_inj.1 (mod_inj_window hp.low hp.high hlow hhigh hp.home)

theorem Shape.head_sequence (ho : Occupied (sb.entryAt sb.nextSequence)) :
    (sb.entryAt sb.nextSequence).context.sequence = sb.nextSequence :=
  h.sequence_of_slot le_rfl (Nat.lt_add_of_pos_right h.capacity_pos) ho

theorem Shape.sequence_inj {i j : Nat} (hi : i < sb.capacity.toNat) (hj : j < sb.capacity.toNat)
    (oi : Occupied (sb.entries i)) (oj : Occupied (sb.entries j))
    (he : (sb.entries i).context.sequence = (sb.entries j).context.sequence) : i = j := by
  rw [← (h.placed i hi oi).home, ← (h.placed j hj oj).home, he]

theorem Shape.write {n : Nat} (he : Occupied e → sb.Placed (sb.slot q) e)
    (hn : n = occupied Occupied sb.capacity.toNat (update sb.entries (sb.slot q) e)) :
    Shape { sb.setEntry q e with inFlight := n } := by
  refine ⟨h.capacity_pos, ?_, hn⟩
  intro i hi ho
  change Occupied (update sb.entries _ _ i) at ho
  have hp : sb.Placed i (update sb.entries (sb.slot q) e i) := by
    by_cases hs : i = sb.slot q
    · subst hs
      rw [update_self] at ho ⊢
      exact he ho
    · rw [update_of_ne hs] at ho ⊢
      exact h.placed i hi ho
  exact ⟨hp.home, hp.low, hp.high, hp.not_max, hp.generation⟩

theorem Shape.submitEntry (p : Option Nat) (hmax : context.sequence ≠ uint64Max) (hgen : context.generation = sb.generation)
    (hlow : sb.nextSequence.toNat ≤ context.sequence.toNat)
    (hhigh : context.sequence.toNat < sb.nextSequence.toNat + sb.capacity.toNat)
    (hfree : (sb.entryAt context.sequence).state = .free) : (sb.submitEntry context p).Shape := by
  refine h.write (fun _ => ⟨rfl, hlow, hhigh, hmax, hgen⟩) ?_
  rw [occupied_update_fill Occupied (slot_lt h.capacity_pos _) (fun ho => ho hfree) (by simp [Occupied]), h.count]

theorem Shape.dropEntry (ho : Occupied (sb.entryAt q)) : (sb.dropEntry q).Shape := by
  refine h.write (fun hr => absurd rfl hr) ?_
  have hc := occupied_update_free Occupied (v := completionEntryReset) (slot_lt h.capacity_pos q) ho (fun hr => hr rfl)
  rw [h.count, ← hc, Nat.add_sub_cancel]

theorem Shape.completeEntry (result : Result) (ho : Occupied (sb.entryAt q)) : (sb.completeEntry q result).Shape := by
  have hp := h.placed_entryAt ho
  have hw : Shape { sb.setEntry q { sb.entryAt q with result := result, state := .complete } with
      inFlight := sb.inFlight } := by
    refine h.write (fun _ => ⟨hp.home, hp.low, hp.high, hp.not_max, hp.generation⟩) ?_
    rw [occupied_update_same Occupied (by simpa [Occupied, entryAt] using ho), h.count]
  exact ⟨hw.capacity_pos, fun i hi ho => ⟨(hw.placed i hi ho).home, (hw.placed i hi ho).low, (hw.placed i hi ho).high,
    (hw.placed i hi ho).not_max, (hw.placed i hi ho).generation⟩, hw.count⟩

theorem Shape.next_succ (hc : sb.headComplete) : (sb.nextSequence + 1).toNat = sb.nextSequence.toNat + 1 := by
  have ho : Occupied (sb.entryAt sb.nextSequence) := by simp [Occupied, hc.1]
  have hm := (h.placed_entryAt ho).not_max
  rw [hc.2.2] at hm
  have hlt := sb.nextSequence.toNat_lt
  have hne : sb.nextSequence.toNat ≠ 2 ^ 64 - 1 := fun he => hm (UInt64.toNat_inj.1 (by rw [he]; rfl))
  rw [UInt64.toNat_add, UInt64.toNat_one]
  omega

theorem Shape.retireHead (hc : sb.headComplete) : sb.retireHead.Shape := by
  have ho : Occupied (sb.entryAt sb.nextSequence) := by simp [Occupied, hc.1]
  have hd := h.dropEntry ho
  have hs := h.next_succ hc
  refine ⟨hd.capacity_pos, ?_, hd.count⟩
  intro i hi hoi
  have hp := hd.placed i hi hoi
  have hlow : sb.nextSequence.toNat ≤ ((sb.dropEntry sb.nextSequence).entries i).context.sequence.toNat := hp.low
  have hhigh : ((sb.dropEntry sb.nextSequence).entries i).context.sequence.toNat <
      sb.nextSequence.toNat + sb.capacity.toNat := hp.high
  -- an entry that still held the head sequence would stand at the slot just reset
  have hne : ((sb.dropEntry sb.nextSequence).entries i).context.sequence.toNat ≠ sb.nextSequence.toNat := by
    intro he
    have hi' : i = sb.slot sb.nextSequence := by rw [← hp.home, UInt64.toNat_inj.1 he]; rfl
    subst hi'
    exact hoi (by simp [CompletionScoreboard.retireHead, CompletionScoreboard.dropEntry, setEntry, completionEntryReset])
  refine ⟨hp.home, ?_, ?_, hp.not_max, hp.generation⟩
  · change (sb.nextSequence + 1).toNat ≤ ((sb.dropEntry sb.nextSequence).entries i).context.sequence.toNat
    omega
  · change ((sb.dropEntry sb.nextSequence).entries i).context.sequence.toNat <
      (sb.nextSequence + 1).toNat + sb.capacity.toNat
    omega

end

/-! ## The history of a scoreboard -/

/-- The entry of `q` is complete and waits for the sequences before it. -/
def Settled (sb : CompletionScoreboard) (q : UInt64) : Prop :=
  (sb.entryAt q).state = .complete ∧ (sb.entryAt q).context.sequence = q

/-- The scoreboard agrees with its history: `retired` are the sequences retired so far, `accepted q` is the number of
completions accepted for `q`. -/
structure Ledger (initial : UInt64) (retired : List UInt64) (accepted : UInt64 → Nat) (sb : CompletionScoreboard) :
    Prop where
  shape : sb.Shape
  next : sb.nextSequence.toNat = initial.toNat + retired.length
  order : retired.map UInt64.toNat = range' initial.toNat retired.length
  closed : ∀ q, q ∈ retired ∨ sb.Settled q → accepted q = 1
  pristine : ∀ q, ¬ (q ∈ retired ∨ sb.Settled q) → accepted q = 0

section Ledger
variable {initial : UInt64} {retired : List UInt64} {accepted : UInt64 → Nat} {sb : CompletionScoreboard}

theorem Ledger.lt_next (h : sb.Ledger initial retired accepted) (hq : q ∈ retired) : q.toNat < sb.nextSequence.toNat := by
  have hm : q.toNat ∈ range' initial.toNat retired.length := by
    rw [← h.order]
    exact mem_map_of_mem hq
  rw [mem_range'_1] at hm
  have := h.next
  omega

theorem Ledger.nodup (h : sb.Ledger initial retired accepted) : retired.Nodup := by
  have hn : (retired.map UInt64.toNat).Nodup := by
    rw [h.order]
    exact nodup_range'
  exact hn.of_map

theorem entryAt_write (sb sb' : CompletionScoreboard)
    (hcap : sb'.capacity = sb.capacity) (hent : sb'.entries = update sb.entries (sb.slot q) e) (r : UInt64) :
    sb'.entryAt r = if sb.slot r = sb.slot q then e else sb.entryAt r := by
  have hslot : sb'.slot r = sb.slot r := by simp [slot, hcap]
  by_cases hs : sb.slot r = sb.slot q
  · rw [entryAt, hent, hslot, hs, update_self, if_pos rfl]
  · rw [entryAt, hent, hslot, update_of_ne hs, if_neg hs]
    rfl

theorem entryAt_of_slot {r : UInt64} (h : sb.slot r = sb.slot q) : sb.entryAt r = sb.entryAt q := by
  rw [entryAt, h]
  rfl

theorem settled_write (sb sb' : CompletionScoreboard)
    (hcap : sb'.capacity = sb.capacity) (hent : sb'.entries = update sb.entries (sb.slot q) e)
    (he : e.state ≠ .complete) (hq : (sb.entryAt q).state ≠ .complete) (r : UInt64) :
    sb'.Settled r ↔ sb.Settled r := by
  by_cases hs : sb.slot r = sb.slot q
  · simp [Settled, entryAt_write sb sb' hcap hent, hs, entryAt_of_slot hs, he, hq]
  · simp [Settled, entryAt_write sb sb' hcap hent, hs]

theorem settled_completeEntry (hq : (sb.entryAt q).state ≠ .complete)
    (hseq : (sb.entryAt q).context.sequence = q) (result : Result) (r : UInt64) :
    (sb.completeEntry q result).Settled r ↔ r = q ∨ sb.Settled r := by
  have hw := entryAt_write sb (sb.completeEntry q result) rfl rfl r
  by_cases hs : sb.slot r = sb.slot q
  · simp [Settled, hw, hs, entryAt_of_slot hs, hseq, hq, eq_comm]
  · have hne : r ≠ q := fun he => hs (by rw [he])
    simp [Settled, hw, hs, hne]

theorem settled_retireHead (hc : sb.headComplete) (r : UInt64) :
    sb.retireHead.Settled r ↔ sb.Settled r ∧ r ≠ sb.nextSequence := by
  have hw := entryAt_write sb sb.retireHead rfl rfl r
  by_cases hs : sb.slot r = sb.slot sb.nextSequence
  · simp [Settled, hw, hs, entryAt_of_slot hs, hc.2.2, completionEntryReset, eq_comm]
  · have hne : r ≠ sb.nextSequence := fun he => hs (by rw [he])
    simp [Settled, hw, hs, hne]

section

variable (h : sb.Ledger initial retired accepted)
include h

theorem Ledger.idle {sb' : CompletionScoreboard} (hshape : sb'.Shape) (hnext : sb'.nextSequence = sb.nextSequence)
    (hset : ∀ r, sb'.Settled r ↔ sb.Settled r) : sb'.Ledger initial retired accepted := by
  refine ⟨hshape, by rw [hnext, h.next], h.order, ?_, ?_⟩
  · intro q hq
    rw [hset] at hq
    exact h.closed q hq
  · intro q hq
    rw [hset] at hq
    exact h.pristine q hq

theorem Ledger.completeEntry (hq : (sb.entryAt q).state = .pending) (hseq : (sb.entryAt q).context.sequence = q)
    (result : Result) : (sb.completeEntry q result).Ledger initial retired (update accepted q (accepted q + 1)) := by
  have ho : Occupied (sb.entryAt q) := by simp [Occupied, hq]
  have hset := settled_completeEntry (by simp [hq]) hseq result
  have hnew : ¬ (q ∈ retired ∨ sb.Settled q) := by
    rintro (hm | hs)
    · have hlow := (h.shape.placed_entryAt ho).low
      rw [hseq] at hlow
      exact absurd (h.lt_next hm) (by omega)
    · rw [hs.1] at hq
      exact absurd hq (by simp)
  refine ⟨h.shape.completeEntry result ho, h.next, h.order, ?_, ?_⟩
  · intro r hr
    by_cases hrq : r = q
    · rw [hrq, update_self, h.pristine q hnew]
    · rw [update_of_ne hrq]
      rw [hset] at hr
      exact h.closed r (by simpa [hrq] using hr)
  · intro r hr
    rw [hset] at hr
    have hrq : r ≠ q := fun he => hr (.inr (.inl he))
    rw [update_of_ne hrq]
    exact h.pristine r fun hm => hr (by tauto)

theorem Ledger.retireHead (hc : sb.headComplete) : sb.retireHead.Ledger initial (retired ++ [sb.nextSequence]) accepted := by
  have hset := settled_retireHead hc
  have hhead : sb.Settled sb.nextSequence := ⟨hc.1, hc.2.2⟩
  have hiff : ∀ r, (r ∈ retired ++ [sb.nextSequence] ∨ sb.retireHead.Settled r) ↔ (r ∈ retired ∨ sb.Settled r) := by
    intro r
    rw [hset, mem_append, mem_singleton]
    by_cases hr : r = sb.nextSequence
    · simp [hr, hhead]
    · simp [hr]
  refine ⟨h.shape.retireHead hc, ?_, ?_, ?_, ?_⟩
  · change (sb.nextSequence + 1).toNat = _
    rw [h.shape.next_succ hc, h.next, length_append, length_singleton, add_assoc]
  · rw [map_append, h.order, map_singleton, h.next, length_append, length_singleton,
      range'_concat, one_mul]
  · intro q hq
    exact h.closed q ((hiff q).1 hq)
  · intro q hq
    exact h.pristine q fun hm => hq ((hiff q).2 hm)

end

theorem retire_snd (n : Nat) (sb : CompletionScoreboard) (advanced : Nat) :
    (sb.retire n advanced).2 = advanced + (sb.retiredSequences n).length := by
  induction n generalizing sb advanced with
  | zero => rfl
  | succ n ih =>
    by_cases hc : sb.headComplete
    · simp only [CompletionScoreboard.retire, retiredSequences, hc, if_true, ih, length_cons]
      omega
    · simp [CompletionScoreboard.retire, retiredSequences, hc]

theorem retire_capacity (n : Nat) (sb : CompletionScoreboard) (advanced : Nat) :
    (sb.retire n advanced).1.capacity = sb.capacity := by
  induction n generalizing sb advanced with
  | zero => rfl
  | succ n ih =>
    by_cases hc : sb.headComplete
    · simp only [CompletionScoreboard.retire, hc, if_true, ih]
      rfl
    · simp [CompletionScoreboard.retire, hc]

theorem Ledger.retire (n : Nat) (h : sb.Ledger initial retired accepted) (advanced : Nat) :
    (sb.retire n advanced).1.Ledger initial (retired ++ sb.retiredSequences n) accepted := by
  induction n generalizing sb retired advanced with
  | zero => simpa [CompletionScoreboard.retire, retiredSequences] using h
  | succ n ih =>
    by_cases hc : sb.headComplete
    · have hr := ih (h.retireHead hc) (advanced + 1)
      simpa [CompletionScoreboard.retire, retiredSequences, hc, hc.2.2] using hr
    · simpa [CompletionScoreboard.retire, retiredSequences, hc] using h

theorem Shape.headComplete (h : sb.Shape) (hc : (sb.entryAt sb.nextSequence).state = .complete) : sb.headComplete := by
  have ho : Occupied (sb.entryAt sb.nextSequence) := by simp [Occupied, hc]
  exact ⟨hc, (h.placed_entryAt ho).generation, h.head_sequence ho⟩

theorem Shape.inFlight_pos (h : sb.Shape) (ho : Occupied (sb.entryAt q)) : 0 < sb.inFlight := by
  rw [h.count]
  exact occupied_pos Occupied (slot_lt h.capacity_pos q) ho

theorem Shape.retire_head (n : Nat) (h : sb.Shape) (hn : sb.inFlight ≤ n) (advanced : Nat) :
    ((sb.retire n advanced).1.entryAt (sb.retire n advanced).1.nextSequence).state ≠ .complete := by
  induction n generalizing sb advanced with
  | zero =>
    intro hc
    have := h.inFlight_pos (q := sb.nextSequence) (fun hf => by simp [CompletionScoreboard.retire, hf] at hc)
    omega
  | succ n ih =>
    by_cases hc : sb.headComplete
    · have hle : sb.retireHead.inFlight ≤ n := by
        change sb.inFlight - 1 ≤ n
        omega
      simpa [CompletionScoreboard.retire, hc] using ih (h.retireHead hc) hle (advanced + 1)
    · intro hs
      simp only [CompletionScoreboard.retire, hc, if_false] at hs
      exact hc (h.headComplete hs)

end Ledger

end CompletionScoreboard

/-! ## What a call does -/

open CompletionScoreboard

/-- The calls on a scoreboard, and `groups` for what the rest of the program does to the release groups in between. -/
inductive Call where
  | submit (context : SubmitContext) (releaseGroup : Option Nat)
  | cancel (context : SubmitContext)
  | completion (context : SubmitContext) (result : Result)
  | groups (g : Nat → ReleaseGroup)

/-- What a call answered, and the sequences it retired. -/
structure Event where
  call : Call
  result : Result
  advanced : Nat
  retired : List UInt64

def retiredBy (t : Tracker) (context : SubmitContext) (result : Result) : List UInt64 :=
  if (trackCompletion t context result).1 = .success ∧ result ≠ .inProgress then
    (t.scoreboard.completeEntry context.sequence result).retiredSequences t.scoreboard.inFlight
  else []

def step (t : Tracker) : Call → Event × Tracker
  | .submit context p =>
    let out := trackSubmit t context p
    (⟨.submit context p, out.1, 0, []⟩, out.2)
  | .cancel context =>
    let out := trackCancel t context
    (⟨.cancel context, out.1, 0, []⟩, out.2)
  | .completion context result =>
    let out := trackCompletion t context result
    (⟨.completion context result, out.1, out.2.1, retiredBy t context result⟩, out.2.2)
  | .groups g => (⟨.groups g, .success, 0, []⟩, { t with groups := g })

def run (t : Tracker) : List Call → List Event × Tracker
  | [] => ([], t)
  | c :: cs => ((step t c).1 :: (run (step t c).2 cs).1, (run (step t c).2 cs).2)

/-- The event is an accepted completion of `q` with a final result. -/
def Event.accepts (e : Event) (q : UInt64) : Bool :=
  match e.call with
  | .completion context result => context.sequence == q && e.result == .success && result != .inProgress
  | _ => false

theorem trackSubmit_cases (t : Tracker) (context : SubmitContext) (p : Option Nat) :
    ((trackSubmit t context p).1 ≠ .success ∧ (trackSubmit t context p).2 = t) ∨
    ((trackSubmit t context p).1 = .success ∧ context.sequence ≠ uint64Max ∧
      context.generation = t.scoreboard.generation ∧ t.scoreboard.nextSequence ≤ context.sequence ∧
      (context.sequence - t.scoreboard.nextSequence).toNat < t.scoreboard.capacity.toNat ∧
      (t.scoreboard.entryAt context.sequence).state = .free ∧
      (trackSubmit t context p).2.scoreboard = t.scoreboard.submitEntry context p) := by
  unfold trackSubmit
  by_cases h1 : t.scoreboard.capacity = 0 ∨ context.sequence = uint64Max
  · simp [h1]
  by_cases h2 : context.generation ≠ t.scoreboard.generation ∨ context.sequence < t.scoreboard.nextSequence
  · simp [h1, h2]
  by_cases h3 : t.scoreboard.capacity.toNat ≤ (context.sequence - t.scoreboard.nextSequence).toNat
  · simp [h1, h2, h3]
  by_cases h4 : (t.scoreboard.entryAt context.sequence).state = .free
  swap
  · simp [h1, h2, h3, h4]
  have hwin : context.sequence ≠ uint64Max ∧ context.generation = t.scoreboard.generation ∧
      t.scoreboard.nextSequence ≤ context.sequence ∧
      (context.sequence - t.scoreboard.nextSequence).toNat < t.scoreboard.capacity.toNat := by
    push Not at h1 h2 h3
    exact ⟨h1.2, h2.1, UInt64.not_lt.1 h2.2, h3⟩
  simp only [h1, h2, h3, h4, if_false, ne_eq, not_true]
  cases p with
  | none =>
    by_cases h5 : context.groupId = 0
    · simpa [h5] using hwin
    · simp [h5]
  | some p =>
    by_cases h5 : context.groupId = 0
    · simp [h5]
    by_cases h6 : (releaseGroupTrackLocked (t.groups p) context).1 = .success
    · simpa [h5, h6] using hwin
    · simp [h5, h6, releaseGroupTrackLocked_failed h6]

theorem trackCancel_cases (t : Tracker) (context : SubmitContext) :
    ((trackCancel t context).1 ≠ .success ∧ (trackCancel t context).2 = t) ∨
    ((trackCancel t context).1 = .success ∧ namesPending t.scoreboard context ∧
      (trackCancel t context).2.scoreboard = t.scoreboard.dropEntry context.sequence) := by
  unfold trackCancel
  by_cases h1 : namesPending t.scoreboard context
  swap
  · simp [h1]
  simp only [h1, not_true, if_false, true_and]
  cases (t.scoreboard.entryAt context.sequence).releaseGroup with
  | none => simp
  | some p =>
    by_cases h2 : (t.groups p).state ≠ .opened ∨ (t.groups p).pending = 0 ∨ (t.groups p).members = 0
    · simp [h2]
    · simp [h2]

theorem trackCompletion_cases (t : Tracker) (context : SubmitContext) (result : Result) :
    ((trackCompletion t context result).1 ≠ .success ∧ (trackCompletion t context result).2 = (0, t)) ∨
    (trackCompletion t context result = (.success, 0, t) ∧ result = .inProgress) ∨
    ((trackCompletion t context result).1 = .success ∧ result ≠ .inProgress ∧ namesPending t.scoreboard context ∧
      (trackCompletion t context result).2.1 =
        ((t.scoreboard.completeEntry context.sequence result).retire t.scoreboard.inFlight 0).2 ∧
      (trackCompletion t context result).2.2.scoreboard =
        ((t.scoreboard.completeEntry context.sequence result).retire t.scoreboard.inFlight 0).1) := by
  unfold trackCompletion
  by_cases h1 : namesPending t.scoreboard context
  swap
  · simp [h1]
  by_cases h2 : result = .inProgress
  · simp [h1, h2]
  simp only [h1, h2, not_true, if_false, true_and]
  cases (t.scoreboard.entryAt context.sequence).releaseGroup with
  | none => simp [h2]
  | some p =>
    by_cases h3 : (releaseGroupCompleteLocked (t.groups p) result).1 = .success
    · simp [h2, h3]
    · simp [h3, releaseGroupCompleteLocked_failed h3]

/-- **A call that does not succeed leaves the scoreboard and the groups as they were.** -/
theorem step_failed {t : Tracker} {c : Call} (h : (step t c).1.result ≠ .success) : (step t c).2 = t := by
  cases c with
  | submit context p =>
    rcases trackSubmit_cases t context p with ⟨-, he⟩ | ⟨hs, -⟩
    · exact he
    · exact absurd hs h
  | cancel context =>
    rcases trackCancel_cases t context with ⟨-, he⟩ | ⟨hs, -⟩
    · exact he
    · exact absurd hs h
  | completion context result =>
    rcases trackCompletion_cases t context result with ⟨-, he⟩ | ⟨hs, -⟩ | ⟨hs, -⟩
    · exact congrArg Prod.snd he
    · exact absurd (congrArg Prod.fst hs) h
    · exact absurd hs h
  | groups g => exact absurd rfl h

/-! ## Runs -/

def retiredOf (events : List Event) : List UInt64 := events.flatMap Event.retired

/-- The number of accepted completions of `q` in a list of events. -/
def acceptedOf (events : List Event) (q : UInt64) : Nat := events.countP (·.accepts q)

/-- The sum of the `advanced` values returned. -/
def advancedOf (events : List Event) : Nat := (events.map Event.advanced).sum

/-- The run invariant: the scoreboard agrees with the events so far, and no complete entry waits at its head. -/
structure Recorded (initial : UInt64) (events : List Event) (sb : CompletionScoreboard) : Prop where
  ledger : sb.Ledger initial (retiredOf events) (acceptedOf events)
  head : (sb.entryAt sb.nextSequence).state ≠ .complete
  advanced : advancedOf events = (retiredOf events).length

section Runs
variable {initial : UInt64} {events : List Event} {sb sb' : CompletionScoreboard} {t : Tracker}

theorem retiredOf_concat (e : Event) : retiredOf (events ++ [e]) = retiredOf events ++ e.retired := by simp [retiredOf]

theorem advancedOf_concat (e : Event) : advancedOf (events ++ [e]) = advancedOf events + e.advanced := by
  simp [advancedOf]

theorem acceptedOf_concat (e : Event) (q : UInt64) :
    acceptedOf (events ++ [e]) q = acceptedOf events q + if e.accepts q then 1 else 0 := by
  simp [acceptedOf, countP_append, countP_cons]

theorem Recorded.idle (h : Recorded initial events sb) {e : Event} (he : e.retired = []) (ha : e.advanced = 0)
    (hc : ∀ q, e.accepts q = false) (hl : sb'.Ledger initial (retiredOf events) (acceptedOf events))
    (hh : (sb'.entryAt sb'.nextSequence).state ≠ .complete) : Recorded initial (events ++ [e]) sb' := by
  have hacc : acceptedOf (events ++ [e]) = acceptedOf events := by
    funext q
    simp [acceptedOf_concat, hc]
  refine ⟨?_, hh, ?_⟩
  · rw [retiredOf_concat, he, append_nil, hacc]
    exact hl
  · rw [advancedOf_concat, ha, retiredOf_concat, he, append_nil, add_zero]
    exact h.advanced

theorem head_write (sb sb' : CompletionScoreboard) (hcap : sb'.capacity = sb.capacity)
    (hent : sb'.entries = update sb.entries (sb.slot q) e) (hnext : sb'.nextSequence = sb.nextSequence)
    (he : e.state ≠ .complete) (hh : (sb.entryAt sb.nextSequence).state ≠ .complete) :
    (sb'.entryAt sb'.nextSequence).state ≠ .complete := by
  rw [entryAt_write sb sb' hcap hent, hnext]
  split_ifs
  · exact he
  · exact hh

theorem toNat_lt_of_sub_lt {a b : UInt64} {c : Nat} (hab : b ≤ a) (h : (a - b).toNat < c) : a.toNat < b.toNat + c := by
  rw [UInt64.toNat_sub_of_le _ _ hab] at h
  omega

theorem namesPending.sequence (h : namesPending sb context) :
    (sb.entryAt context.sequence).context.sequence = context.sequence := by
  have hm := h.2.2.2.2.2
  simp only [submitContextMatches, Bool.and_eq_true, beq_iff_eq] at hm
  exact hm.1.2

theorem namesPending.pending (h : namesPending sb context) : (sb.entryAt context.sequence).state = .pending := h.2.2.2.2.1

theorem namesPending.occupied (h : namesPending sb context) :
    Occupied (sb.entryAt context.sequence) := by simp [Occupied, h.pending]

section

variable (h : Recorded initial events t.scoreboard)
include h

theorem Recorded.trackSubmit (context : SubmitContext) (p : Option Nat) :
    Recorded initial (events ++ [(step t (.submit context p)).1]) (step t (.submit context p)).2.scoreboard := by
  rcases trackSubmit_cases t context p with ⟨-, he⟩ | ⟨-, hmax, hgen, hlow, hhigh, hfree, he⟩
  · refine h.idle rfl rfl (fun _ => rfl) ?_ ?_ <;> simp only [step, he]
    · exact h.ledger
    · exact h.head
  · have hl := h.ledger.idle (h.ledger.shape.submitEntry p hmax hgen hlow (toNat_lt_of_sub_lt hlow hhigh) hfree) rfl
      (settled_write _ _ rfl rfl (by simp) (by simp [hfree]))
    have hh := head_write t.scoreboard (t.scoreboard.submitEntry context p) rfl rfl rfl (by simp) h.head
    refine h.idle rfl rfl (fun _ => rfl) ?_ ?_ <;> simp only [step, he]
    · exact hl
    · exact hh

theorem Recorded.trackCancel (context : SubmitContext) :
    Recorded initial (events ++ [(step t (.cancel context)).1]) (step t (.cancel context)).2.scoreboard := by
  rcases trackCancel_cases t context with ⟨-, he⟩ | ⟨-, hp, he⟩
  · refine h.idle rfl rfl (fun _ => rfl) ?_ ?_ <;> simp only [step, he]
    · exact h.ledger
    · exact h.head
  · have hl := h.ledger.idle (h.ledger.shape.dropEntry hp.occupied) rfl
      (settled_write _ _ rfl rfl (by simp [completionEntryReset]) (by simp [hp.pending]))
    have hh := head_write t.scoreboard (t.scoreboard.dropEntry context.sequence) rfl rfl rfl
      (by simp [completionEntryReset]) h.head
    refine h.idle rfl rfl (fun _ => rfl) ?_ ?_ <;> simp only [step, he]
    · exact hl
    · exact hh

theorem Recorded.trackCompletion (context : SubmitContext) (result : Result) :
    Recorded initial (events ++ [(step t (.completion context result)).1])
      (step t (.completion context result)).2.scoreboard := by
  rcases trackCompletion_cases t context result with ⟨hf, he⟩ | ⟨he, hi⟩ | ⟨hs, hi, hp, hadv, he⟩
  · refine h.idle (by simp [step, retiredBy, hf]) (by simp [step, he]) (fun q => by simp [step, Event.accepts, hf])
      ?_ ?_ <;> simp only [step, he]
    · exact h.ledger
    · exact h.head
  · refine h.idle (by simp [step, retiredBy, hi]) (by simp [step, he]) (fun q => by simp [step, Event.accepts, hi])
      ?_ ?_ <;> simp only [step, he]
    · exact h.ledger
    · exact h.head
  · have hl := h.ledger.completeEntry hp.pending hp.sequence result
    have hret : (step t (.completion context result)).1.retired =
        (t.scoreboard.completeEntry context.sequence result).retiredSequences t.scoreboard.inFlight := by
      simp [step, retiredBy, hs, hi]
    have hacc : acceptedOf (events ++ [(step t (.completion context result)).1]) =
        update (acceptedOf events) context.sequence (acceptedOf events context.sequence + 1) := by
      funext q
      by_cases hq : q = context.sequence
      · simp [acceptedOf_concat, step, Event.accepts, hs, hi, hq]
      · simp [acceptedOf_concat, step, Event.accepts, update_of_ne hq, Ne.symm hq]
    refine ⟨?_, ?_, ?_⟩
    · rw [retiredOf_concat, hret, hacc]
      simp only [step, he]
      exact hl.retire _ 0
    · simp only [step, he]
      exact hl.shape.retire_head _ le_rfl 0
    · rw [advancedOf_concat, retiredOf_concat, hret, length_append, h.advanced]
      simp only [step, hadv, retire_snd, zero_add]

theorem Recorded.step (c : Call) : Recorded initial (events ++ [(step t c).1]) (step t c).2.scoreboard := by
  cases c with
  | submit context p => exact h.trackSubmit context p
  | cancel context => exact h.trackCancel context
  | completion context result => exact h.trackCompletion context result
  | groups g => exact h.idle rfl rfl (fun _ => rfl) h.ledger h.head

theorem Recorded.run (calls : List Call) : Recorded initial (events ++ (run t calls).1) (run t calls).2.scoreboard := by
  induction calls generalizing events t with
  | nil => simpa [Net.run] using h
  | cons c cs ih => simpa [Net.run] using ih (h.step c)

end

theorem recorded_init {capacity : UInt32} {generation : UInt64}
    (h : CompletionScoreboard.init capacity generation initial = .ok sb) : Recorded initial [] sb := by
  unfold CompletionScoreboard.init at h
  split_ifs at h with hc
  push Not at hc
  obtain rfl := Except.ok.inj h
  have hpos : 0 < capacity.toNat := by
    rcases Nat.eq_zero_or_pos capacity.toNat with hz | hz
    · exact absurd (UInt32.toNat_inj.1 hz) hc.1
    · exact hz
  have hfree : ∀ i, ¬ Occupied ((fun _ => completionEntryReset : Nat → CompletionEntry) i) := fun i ho => ho rfl
  refine ⟨⟨⟨hpos, fun i _ ho => absurd ho (hfree i), ?_⟩, rfl, rfl, ?_, fun _ _ => rfl⟩, ?_, rfl⟩
  · simp [occupied, completionEntryReset]
  · rintro q (hq | hq)
    · exact absurd hq not_mem_nil
    · exact absurd hq.1 (by simp [entryAt, completionEntryReset])
  · simp [entryAt, completionEntryReset]

theorem step_capacity (t : Tracker) (c : Call) : (step t c).2.scoreboard.capacity = t.scoreboard.capacity := by
  cases c with
  | submit context p =>
    rcases trackSubmit_cases t context p with ⟨-, he⟩ | ⟨-, -, -, -, -, -, he⟩ <;> simp only [Net.step, he]
    rfl
  | cancel context =>
    rcases trackCancel_cases t context with ⟨-, he⟩ | ⟨-, -, he⟩ <;> simp only [Net.step, he]
    rfl
  | completion context result =>
    rcases trackCompletion_cases t context result with ⟨-, he⟩ | ⟨he, -⟩ | ⟨-, -, -, -, he⟩ <;>
      simp only [Net.step, he, retire_capacity]
    rfl
  | groups g => rfl

theorem run_capacity (t : Tracker) (calls : List Call) : (run t calls).2.scoreboard.capacity = t.scoreboard.capacity := by
  induction calls generalizing t with
  | nil => rfl
  | cons c cs ih => rw [Net.run, ih, step_capacity]

theorem run_append (t : Tracker) (cs ds : List Call) : (run t (cs ++ ds)).1 = (run t cs).1 ++ (run (run t cs).2 ds).1 := by
  induction cs generalizing t with
  | nil => rfl
  | cons c cs ih => simp [Net.run, ih]

theorem run_length (t : Tracker) (calls : List Call) : (run t calls).1.length = calls.length := by
  induction calls generalizing t with
  | nil => rfl
  | cons c cs ih => simp [Net.run, ih]

theorem run_prefix {pre post : List Event} {calls : List Call} (h : (run t calls).1 = pre ++ post) :
    ∃ cs, (run t cs).1 = pre := by
  refine ⟨calls.take pre.length, ?_⟩
  rw [← take_append_drop pre.length calls, run_append] at h
  refine (append_inj h ?_).1
  have hlen : pre.length ≤ calls.length := by
    have := congrArg length h
    rw [← run_append, take_append_drop, run_length, length_append] at this
    omega
  rw [run_length, length_take, min_eq_left hlen]

theorem accepted_once (h : ∀ cs, Recorded initial (run t cs).1 (run t cs).2.scoreboard)
    {calls : List Call} {pre post : List Event} {e : Event} (hrun : (run t calls).1 = pre ++ e :: post)
    (hq : q ∈ e.retired) : acceptedOf (pre ++ [e]) q = 1 ∧ acceptedOf post q = 0 := by
  have hsplit : (run t calls).1 = (pre ++ [e]) ++ post := by simp [hrun]
  have hmem : q ∈ retiredOf (pre ++ [e]) := by
    rw [retiredOf_concat]
    exact mem_append_right _ hq
  obtain ⟨cs, hcs⟩ := run_prefix hsplit
  have hone : acceptedOf (pre ++ [e]) q = 1 := by
    have hl := (h cs).ledger
    rw [hcs] at hl
    exact hl.closed q (.inl hmem)
  have hall : acceptedOf (pre ++ [e]) q + acceptedOf post q = 1 := by
    have hl := (h calls).ledger
    rw [hsplit] at hl
    have hin : q ∈ retiredOf (pre ++ [e] ++ post) := by
      rw [retiredOf, flatMap_append]
      exact mem_append_left _ hmem
    have hc := hl.closed q (.inl hin)
    rwa [acceptedOf, countP_append] at hc
  exact ⟨hone, by omega⟩

end Runs

/-! ## The contract -/

/-- **Every sequence is retired once, in order, after its one accepted completion.** For any list of calls on an
initialised scoreboard: the layout of the slots, the position of the head, the history of each retired sequence, and
calls that fail change nothing. -/
theorem scoreboard_retires_once_in_order {capacity : UInt32} {generation initial : UInt64} {sb : CompletionScoreboard}
    (hinit : CompletionScoreboard.init capacity generation initial = .ok sb) (groups : Nat → ReleaseGroup)
    (calls : List Call) :
    let events := (run ⟨sb, groups⟩ calls).1
    let t := (run ⟨sb, groups⟩ calls).2
    let s := t.scoreboard
    let used := (Finset.range capacity.toNat).filter fun i => (s.entries i).state ≠ .free
    ((∀ i ∈ used, ∀ j ∈ used, i ≠ j → (s.entries i).context.sequence ≠ (s.entries j).context.sequence) ∧
      (∀ i ∈ used, s.nextSequence.toNat ≤ (s.entries i).context.sequence.toNat ∧
        (s.entries i).context.sequence.toNat < s.nextSequence.toNat + capacity.toNat ∧
        i = (s.entries i).context.sequence.toNat % capacity.toNat) ∧
      s.inFlight = used.card) ∧
    (s.nextSequence.toNat = initial.toNat + (retiredOf events).length ∧
      (s.entries (s.nextSequence.toNat % capacity.toNat)).state ≠ .complete ∧
      advancedOf events = (retiredOf events).length) ∧
    ((retiredOf events).Nodup ∧ (retiredOf events).map UInt64.toNat = range' initial.toNat (retiredOf events).length ∧
      ∀ pre e post, events = pre ++ e :: post → ∀ q ∈ e.retired,
        acceptedOf (pre ++ [e]) q = 1 ∧ acceptedOf post q = 0) ∧
    ∀ c, (step t c).1.result ≠ .success → (step t c).2 = t := by
  intro events t s used
  have hrec : ∀ cs, Recorded initial (run ⟨sb, groups⟩ cs).1 (run ⟨sb, groups⟩ cs).2.scoreboard := by
    intro cs
    have h0 : Recorded initial [] (Tracker.mk sb groups).scoreboard := recorded_init hinit
    simpa using h0.run cs
  have hcap : s.capacity = capacity := by
    have hc : s.capacity = sb.capacity := run_capacity _ _
    unfold CompletionScoreboard.init at hinit
    split_ifs at hinit
    rw [hc, ← Except.ok.inj hinit]
  have h : Recorded initial events s := hrec calls
  have hshape := h.ledger.shape
  have hmem : ∀ {i}, i ∈ used → i < s.capacity.toNat ∧ Occupied (s.entries i) := by
    intro i hi
    simpa [used, Occupied, hcap] using hi
  refine ⟨⟨?_, ?_, ?_⟩, ⟨h.ledger.next, ?_, h.advanced⟩, ⟨h.ledger.nodup, h.ledger.order, ?_⟩, ?_⟩
  · intro i hi j hj hij he
    exact hij (hshape.sequence_inj (hmem hi).1 (hmem hj).1 (hmem hi).2 (hmem hj).2 he)
  · intro i hi
    have hp := hshape.placed i (hmem hi).1 (hmem hi).2
    exact ⟨hp.low, by simpa [hcap] using hp.high, by simpa [slot, hcap] using hp.home.symm⟩
  · simpa [occupied, hcap, used] using hshape.count
  · simpa [entryAt, slot, hcap] using h.head
  · intro pre e post hsplit q hq
    exact accepted_once hrec hsplit hq
  · intro c hc
    exact step_failed hc

/-- Three submissions on two slots, the third refused until the head retires, and completions out of order with one
repeated: the run retires 5 and then 6. -/
theorem scoreboard_retires_five_six :
    ∃ sb, CompletionScoreboard.init 2 1 5 = .ok sb ∧ retiredOf (run ⟨sb, fun _ => ⟨0, 0, .opened, 0, 0, false, .success⟩⟩
        [.submit ⟨0, 0, 1, 5, 0⟩ none, .submit ⟨0, 0, 1, 6, 0⟩ none, .submit ⟨0, 0, 1, 7, 0⟩ none,
          .completion ⟨0, 0, 1, 6, 0⟩ .success, .completion ⟨0, 0, 1, 6, 0⟩ .success,
          .completion ⟨0, 0, 1, 5, 0⟩ .success]).1 = [5, 6] ∧
      (retiredOf (run ⟨sb, fun _ => ⟨0, 0, .opened, 0, 0, false, .success⟩⟩
        [.submit ⟨0, 0, 1, 5, 0⟩ none, .submit ⟨0, 0, 1, 6, 0⟩ none, .submit ⟨0, 0, 1, 7, 0⟩ none,
          .completion ⟨0, 0, 1, 6, 0⟩ .success, .completion ⟨0, 0, 1, 6, 0⟩ .success,
          .completion ⟨0, 0, 1, 5, 0⟩ .success]).1).Nodup := by
  have hi : CompletionScoreboard.init 2 1 5 = .ok ⟨fun _ => completionEntryReset, 2, 0, 1, 5, .success⟩ := rfl
  refine ⟨_, hi, ?_, (scoreboard_retires_once_in_order hi _ _).2.2.1.1⟩
  decide

end FlagCX.Net
