import FlagCX.Rma.Board
import FlagCX.Rma.Origin

/-!
# Release groups of the RMA proxy

A release group belongs to one call. `Ledgered` follows the books of a group through the calls that the proxy makes on
the scoreboards; with them none of its cancellations and completions is refused (`Tracked.cancelAll`,
`Tracked.completion_success`).
-/

namespace FlagCX.Rma
open List Function

open Net Lib CompletionScoreboard

variable {n : Nat} {p : Fin n} {f f' : Fabric (Fin n)} {g : Nat} {r : Roster (Fin n)} {ds P : List Submission}
  {C : List (Submission × Result × Result)} {d : Submission}

/-! ## Counts of a group -/

def Counted (f : Fabric (Fin n)) (g : Nat) : Prop := (f.groups g).pending ≤ (f.groups g).members

variable {group : ReleaseGroup} {context : SubmitContext}

theorem trackLocked_counted (h : group.pending ≤ group.members) :
    (releaseGroupTrackLocked group context).2.pending ≤ (releaseGroupTrackLocked group context).2.members := by
  unfold releaseGroupTrackLocked
  split_ifs with hc
  · exact h
  · push Not at hc
    rw [UInt32.le_iff_toNat_le] at h ⊢
    rw [toNat_succ hc.2.2.2.1, toNat_succ hc.2.2.2.2]
    omega

theorem completeLocked_counted {result : Result} (h : group.pending ≤ group.members) :
    (releaseGroupCompleteLocked group result).2.pending ≤ (releaseGroupCompleteLocked group result).2.members := by
  unfold releaseGroupCompleteLocked
  by_cases hc : group.state = .complete ∨ group.pending = 0
  · rw [if_pos hc]
    exact h
  · rw [if_neg hc]
    push Not at hc
    have hle : group.pending - 1 ≤ group.members := by
      have := toNat_pred hc.2
      rw [UInt32.le_iff_toNat_le] at h ⊢
      omega
    dsimp only
    split_ifs <;> exact hle

def IsProxyCall : GroupCall (Fin n) → Prop
  | .groupReset _ _ _ => False
  | _ => True

/-- Every call of the proxy keeps `I`. -/
def Kept (I : Fabric (Fin n) → Prop) : Prop := ∀ f k, IsProxyCall k → I f → I (f.call k).2

theorem sealLocked_counted (h : group.pending ≤ group.members) :
    (releaseGroupSeal group).2.pending ≤ (releaseGroupSeal group).2.members := by
  unfold releaseGroupSeal
  split_ifs <;> exact h

theorem trackCancel_pending {t : Tracker} (hs : (trackCancel t context).1 = .success)
    (hg : (t.scoreboard.entryAt context.sequence).releaseGroup = some g) : (t.groups g).pending ≠ 0 := by
  intro hz
  unfold trackCancel at hs
  by_cases hp : namesPending t.scoreboard context
  · simp [hp, hg, hz] at hs
  · simp [hp] at hs

theorem Counted.call (h : Counted f g) {k : GroupCall (Fin n)} (hk : IsProxyCall k) : Counted (f.call k).2 g := by
  by_cases hs : (f.call k).1 = .success
  swap
  · rw [call_failed hs]
    exact h
  cases k with
  | submit i context group =>
    show ((trackSubmit ⟨f.boards i, f.groups⟩ context group).2.groups g).pending ≤
      ((trackSubmit ⟨f.boards i, f.groups⟩ context group).2.groups g).members
    have hg := trackSubmit_group (p := g) hs
    split_ifs at hg
    · rw [hg.2]
      exact trackLocked_counted h
    · rw [hg]
      exact h
  | cancel i context =>
    show ((trackCancel ⟨f.boards i, f.groups⟩ context).2.groups g).pending ≤
      ((trackCancel ⟨f.boards i, f.groups⟩ context).2.groups g).members
    have hg := trackCancel_group (p := g) hs
    split_ifs at hg
    · rw [hg.2]
      rename_i hgroup
      have hpos : ((f.groups g).pending - 1).toNat + 1 = (f.groups g).pending.toNat :=
        toNat_pred (trackCancel_pending hs hgroup)
      have hle := UInt32.le_iff_toNat_le.1 h
      have hne : (f.groups g).members ≠ 0 := by
        intro hz
        rw [hz] at hle
        have : (0 : UInt32).toNat = 0 := rfl
        omega
      have := toNat_pred hne
      show ((f.groups g).pending - 1).toNat ≤ ((f.groups g).members - 1).toNat
      omega
    · rw [hg]
      exact h
  | completion i context result =>
    by_cases hr : result = .inProgress
    · rcases trackCompletion_cases ⟨f.boards i, f.groups⟩ context result with ⟨hf, -⟩ | ⟨he, -⟩ | ⟨-, hi, -⟩
      · exact absurd hs hf
      · simpa [Counted, Fabric.call, Fabric.onBoard, he] using h
      · exact absurd hr hi
    · show ((trackCompletion ⟨f.boards i, f.groups⟩ context result).2.2.groups g).pending ≤
        ((trackCompletion ⟨f.boards i, f.groups⟩ context result).2.2.groups g).members
      have hg := trackCompletion_group (p := g) hs hr
      split_ifs at hg
      · rw [hg.2]
        exact completeLocked_counted h
      · rw [hg]
        exact h
  | groupSeal k =>
    show ((update f.groups k _) g).pending ≤ ((update f.groups k _) g).members
    rw [update_apply]
    split_ifs with hgk
    · subst hgk
      exact sealLocked_counted h
    · exact h
  | groupTest p => exact h
  | groupReset p groupId generation => exact hk.elim

theorem counted_kept (g : Nat) : Kept (n := n) (Counted · g) := fun _ _ hk h => h.call hk

section Kept
variable {I : Fabric (Fin n) → Prop} (hI : Kept I)
include hI

theorem Kept.submitAll (h : I f) (hs : submitAll p f ds = some f') : I f' := by
  induction ds generalizing f with
  | nil =>
    cases hs
    exact h
  | cons d ds ih =>
    unfold Rma.submitAll at hs
    dsimp only at hs
    split_ifs at hs
    exact ih (hI f (.submit p d.submitContext d.trackedGroup) trivial h) hs

theorem Kept.cancelAll (h : I f) : I (cancelAll p f ds) := by
  induction ds with
  | nil => exact h
  | cons d ds ih => exact hI _ _ trivial ih

theorem Kept.sealed (h : I f) {group : Option Nat} (hs : sealed? f group = some f') : I f' := by
  cases group with
  | none =>
    cases hs
    exact h
  | some k =>
    unfold sealed? at hs
    dsimp only at hs
    split_ifs at hs
    cases hs
    exact hI _ _ trivial h

end Kept

/-! ## The books of a group -/

theorem ledgered_fresh (hshape : ∀ i, (f.boards i).Shape) {groupId generation : UInt64}
    (hnone : ∀ i, ∀ j < (f.boards i).capacity.toNat, ¬ RefersTo g ((f.boards i).entries j))
    (hinit : releaseGroupInit groupId generation = .ok group) : Ledgered g (f.onGroup g group) ⟨[], false⟩ := by
  have hzero : ∀ i, pendingOn g (f.boards i) = 0 := by
    intro i
    exact pendingOn_eq_zero.2 fun q ⟨j, hj, hr, _⟩ => hnone i j hj hr
  have hclean : Roster.Clean (⟨[], false⟩ : Roster (Fin n)) = True := by simp [Roster.Clean]
  have hself : (f.onGroup g group).groups g = group := update_self ..
  refine ⟨hshape, fun i q => ?_, fun i j hj hr => absurd hr (hnone i j hj), ?_⟩
  · refine iff_of_false ?_ (pendingOn_eq_zero.1 (hzero i) q)
    rintro ⟨m, hm, -⟩
    exact absurd hm not_mem_nil
  · rw [hclean, hself]
    show Gate group (∑ i, pendingOn g (f.boards i)) True false
    simpa [hzero] using gate_init hinit

section

variable (h : Ledgered g f r)
include h

theorem ledgered_submitAll (hs : submitAll p f ds = some f') : ∃ ms, Ledgered g f' { r with members := r.members ++ ms } ∧
      ∀ d ∈ ds, d.trackedGroup = some g → ⟨p, d.sequence, .pending⟩ ∈ ms := by
  induction ds generalizing f r with
  | nil =>
    cases hs
    exact ⟨[], by rw [append_nil]; exact h, fun d hd => absurd hd not_mem_nil⟩
  | cons d ds ih =>
    unfold submitAll at hs
    dsimp only at hs
    split_ifs at hs with hone
    have hstep := h.submit hone
    rw [record_submit] at hstep
    by_cases hg : d.trackedGroup = some g
    · rw [if_pos hg] at hstep
      obtain ⟨ms, hms, hmem⟩ := ih hstep hs
      refine ⟨⟨p, d.sequence, .pending⟩ :: ms, ?_, fun e he hge => ?_⟩
      · rw [append_cons]
        exact hms
      · rcases mem_cons.1 he with rfl | he
        · exact mem_cons_self
        · exact mem_cons_of_mem _ (hmem e he hge)
    · rw [if_neg hg] at hstep
      obtain ⟨ms, hms, hmem⟩ := ih hstep hs
      refine ⟨ms, hms, fun e he hge => ?_⟩
      rcases mem_cons.1 he with rfl | he
      · exact absurd hge hg
      · exact hmem e he hge

theorem ledgered_cancelAll : ∃ r', Ledgered g (cancelAll p f ds) r' ∧ r'.sealed = r.sealed ∧
    ∀ m ∈ r.members, (∀ d ∈ ds, m.board = p → m.sequence ≠ d.sequence) → m ∈ r'.members := by
  induction ds with
  | nil => exact ⟨r, h, rfl, fun m hm _ => hm⟩
  | cons d ds ih =>
    obtain ⟨r', hr', hseal, hmem⟩ := ih
    by_cases hs : ((cancelAll p f ds).call (.cancel p d.submitContext)).1 = .success
    · refine ⟨_, hr'.cancel hs, hseal, fun m hm hne => ?_⟩
      have hold := hmem m hm fun e he => hne e (mem_cons_of_mem d he)
      refine mem_map.2 ⟨m, hold, ?_⟩
      rw [Member.settle, if_neg]
      rintro ⟨hb, hq, -⟩
      exact hne d mem_cons_self hb hq
    · refine ⟨r', ?_, hseal, fun m hm hne => hmem m hm fun e he => hne e (mem_cons_of_mem d he)⟩
      show Ledgered g ((cancelAll p f ds).call (.cancel p d.submitContext)).2 r'
      rw [call_failed hs]
      exact hr'

theorem ledgered_sealed {group : Option Nat} (hs : sealed? f group = some f') :
    Ledgered g f' { r with sealed := r.sealed || decide (group = some g) } := by
  cases group with
  | none =>
    cases hs
    simpa using h
  | some k =>
    unfold sealed? at hs
    dsimp only at hs
    split_ifs at hs with hone
    cases hs
    have hstep : Ledgered g (f.call (.groupSeal k)).2 (r.record g (.groupSeal k)) := h.seal hone
    rw [Roster.record] at hstep
    by_cases hk : k = g
    · simpa [hk] using hstep
    · simpa [hk] using hstep

theorem ledgered_completion (result : Result) :
    ∃ r', Ledgered g (f.call (.completion p d.submitContext result)).2 r' ∧ r'.sealed = r.sealed ∧
      ∀ m ∈ r.members, m ∈ r'.members ∨ m.board = p ∧ m.sequence = d.sequence ∧ m.standing = .pending ∧
        { m with standing := .completed result } ∈ r'.members := by
  by_cases hs : (f.call (.completion p d.submitContext result)).1 = .success
  swap
  · rw [call_failed hs]
    exact ⟨r, h, rfl, fun m hm => .inl hm⟩
  have hstep := h.completion hs
  by_cases hr : result = .inProgress
  · rw [Roster.record, if_pos hr] at hstep
    exact ⟨r, hstep, rfl, fun m hm => .inl hm⟩
  · rw [Roster.record, if_neg hr] at hstep
    refine ⟨_, hstep, rfl, fun m hm => ?_⟩
    have hin := mem_map_of_mem (f := Member.settle p d.submitContext.sequence (.completed result)) hm
    by_cases hc : m.board = p ∧ m.sequence = d.submitContext.sequence ∧ m.standing = .pending
    · rw [Member.settle, if_pos hc] at hin
      exact .inr ⟨hc.1, hc.2.1, hc.2.2, hin⟩
    · rw [Member.settle, if_neg hc] at hin
      exact .inl hin

end

/-! ## No call of the proxy is refused -/

theorem Tracked.group_pending (h : Tracked (f.boards p) P C) (hd : d ∈ P) (hf : ¬ Final C d)
    (hg : d.trackedGroup = some g) (hl : Ledgered g f r) :
    (f.groups g).pending ≠ 0 ∧ (f.groups g).state ≠ .complete := by
  obtain ⟨hn, -⟩ := h.pending hd hf
  have hwaits : Waits g (f.boards p) d.sequence :=
    (waits_entryAt h.shape (h.namesPending hd hf)).2 ((h.entry hd hn).2.1.trans hg)
  have hpos : 0 < ∑ i, pendingOn g (f.boards i) := by
    refine Nat.pos_of_ne_zero fun hz => ?_
    have hone := pendingOn_pos hwaits
    rw [Finset.sum_eq_zero_iff.1 hz p (Finset.mem_univ p)] at hone
    exact lt_irrefl 0 hone
  constructor
  · intro hz
    have hcount := hl.gate.pending
    rw [hz] at hcount
    have : (0 : UInt32).toNat = 0 := rfl
    omega
  · intro hc
    have := (hl.gate.closed.1 hc).2
    omega

def Opened (f : Fabric (Fin n)) (g : Nat) : Prop := Counted f g ∧ ∃ r, Ledgered g f r ∧ r.sealed = false

theorem Tracked.cancel_success (h : Tracked (f.boards p) P C) (hd : d ∈ P) (hf : ¬ Final C d)
    (hl : ∀ g, d.trackedGroup = some g → Opened f g) :
    (f.call (.cancel p d.submitContext)).1 = .success ∧
      (f.call (.cancel p d.submitContext)).2.boards p = (f.boards p).dropEntry d.sequence := by
  have hp := h.namesPending hd hf
  obtain ⟨hn, -⟩ := h.pending hd hf
  have hgroup : ((f.boards p).entryAt d.submitContext.sequence).releaseGroup = d.trackedGroup := (h.entry hd hn).2.1
  have hs : (trackCancel ⟨f.boards p, f.groups⟩ d.submitContext).1 = .success := by
    unfold trackCancel
    rw [if_neg (not_not.2 hp), hgroup]
    cases hg : d.trackedGroup with
    | none => rfl
    | some g =>
      obtain ⟨hc, r, hr, hopen⟩ := hl g hg
      have hpend := (h.group_pending hd hf hg hr).1
      have hstate : (f.groups g).state = .opened := by
        by_contra hno
        rw [hr.gate.shut.2 hno] at hopen
        cases hopen
      have hmem : (f.groups g).members ≠ 0 := by
        intro hz
        have hle := UInt32.le_iff_toNat_le.1 hc
        rw [hz] at hle
        exact hpend (UInt32.toNat_inj.1 (Nat.le_zero.1 hle))
      dsimp only
      simp [hstate, hpend, hmem]
  refine ⟨hs, ?_⟩
  rcases trackCancel_cases ⟨f.boards p, f.groups⟩ d.submitContext with ⟨hno, -⟩ | ⟨-, -, he⟩
  · exact absurd hs hno
  · exact (onBoard_self _).trans he

theorem Tracked.cancelAll (h : Tracked (f.boards p) (P ++ ds) C) (hclosed : ∀ x ∈ C, x.1 ∈ P)
    (hl : ∀ d ∈ ds, ∀ g, d.trackedGroup = some g → Opened f g) :
    Tracked ((cancelAll p f ds).boards p) P C ∧ ∀ q ≠ p, (Rma.cancelAll p f ds).boards q = f.boards q := by
  induction ds generalizing P with
  | nil =>
    rw [append_nil] at h
    exact ⟨h, fun _ _ => rfl⟩
  | cons d ds ih =>
    rw [append_cons] at h
    obtain ⟨hstep, hrest⟩ := ih h (fun x hx => mem_append_left _ (hclosed x hx)) fun e he => hl e (mem_cons_of_mem d he)
    have hd : d ∈ P ++ [d] := mem_append_right _ (mem_singleton_self d)
    have hf : ¬ Final C d := by
      rintro ⟨result, tracked, hm, -⟩
      obtain ⟨i, hi⟩ := getElem?_of_mem (hclosed _ hm)
      have hlt := (List.getElem?_eq_some_iff.1 hi).1
      have h1 := (hstep.numbered i d (by rw [getElem?_append_left hlt]; exact hi)).1
      have h2 := (hstep.numbered P.length d (by simp)).1
      omega
    obtain ⟨-, hboard⟩ := hstep.cancel_success hd hf fun g hg => by
      obtain ⟨hc, r, hr, hopen⟩ := hl d mem_cons_self g hg
      obtain ⟨r', hr', hsame, -⟩ : ∃ r', Ledgered g (Rma.cancelAll p f ds) r' ∧ _ := ledgered_cancelAll hr
      exact ⟨(counted_kept g).cancelAll hc, r', hr', hsame.trans hopen⟩
    refine ⟨?_, fun q hq => (onBoard_ne hq _).trans (hrest q hq)⟩
    show Tracked (((Rma.cancelAll p f ds).call (.cancel p d.submitContext)).2.boards p) P C
    rw [hboard]
    exact hstep.dropEntry hclosed hf

theorem Tracked.completion_success (h : Tracked (f.boards p) P C) (hd : d ∈ P) (hf : ¬ Final C d) (result : Result)
    (hl : ∀ g, d.trackedGroup = some g → ∃ r, Ledgered g f r) :
    (f.call (.completion p d.submitContext result)).1 = .success := by
  have hp := h.namesPending hd hf
  obtain ⟨hn, -⟩ := h.pending hd hf
  have hgroup : ((f.boards p).entryAt d.submitContext.sequence).releaseGroup = d.trackedGroup := (h.entry hd hn).2.1
  show (trackCompletion ⟨f.boards p, f.groups⟩ d.submitContext result).1 = .success
  unfold trackCompletion
  rw [if_neg (not_not.2 hp), hgroup]
  by_cases hr : result = .inProgress
  · rw [if_pos hr]
  rw [if_neg hr]
  cases hg : d.trackedGroup with
  | none => rw [if_neg (by simp)]
  | some g =>
    obtain ⟨r, hr'⟩ := hl g hg
    obtain ⟨hpend, hstate⟩ := h.group_pending hd hf hg hr'
    have hs : (releaseGroupCompleteLocked (f.groups g) result).1 = .success := by
      unfold releaseGroupCompleteLocked
      rw [if_neg (by simp [hpend, hstate])]
      dsimp only
      split_ifs <;> rfl
    rw [if_neg (not_not.2 hs)]

end FlagCX.Rma
