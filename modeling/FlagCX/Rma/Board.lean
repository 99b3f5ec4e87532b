import FlagCX.Rma.Books

/-!
# The scoreboard of a peer, from what was published and completed

`Tracked sb P C` : the entries of the scoreboard are the published operations `P` that have not retired, complete or
pending as the completions `C` say. The calls of the proxy keep it.
-/

namespace FlagCX.Rma
open List Function

open Net CompletionScoreboard

def Final (C : List (Submission × Result × Result)) (d : Submission) : Prop :=
  ∃ result tracked, (d, result, tracked) ∈ C ∧ result ≠ .inProgress

/-- The scoreboard agrees with the published operations and their completions. -/
structure Tracked (sb : CompletionScoreboard) (P : List Submission) (C : List (Submission × Result × Result)) : Prop where
  shape : sb.Shape
  generation : sb.generation = Rma.generation
  numbered : ∀ i d, P[i]? = some d → d.sequence.toNat = i + 1 ∧ d.generation = Rma.generation
  closed : ∀ x ∈ C, x.1 ∈ P
  next : 0 < sb.nextSequence.toNat ∧ sb.nextSequence.toNat ≤ P.length + 1
  retired : ∀ d ∈ P, d.sequence.toNat < sb.nextSequence.toNat → Final C d
  held : ∀ d ∈ P, sb.nextSequence.toNat ≤ d.sequence.toNat →
    Occupied (sb.entryAt d.sequence) ∧ (sb.entryAt d.sequence).context.sequence = d.sequence
  live : ∀ j < sb.capacity.toNat, Occupied (sb.entries j) → ∃ d ∈ P, (sb.entries j).context = d.submitContext ∧
    (sb.entries j).releaseGroup = d.trackedGroup ∧ ((sb.entries j).state = .pending ↔ ¬ Final C d)
  error : sb.firstError = .success ↔ ∀ x ∈ C, x.2.1 ≠ .inProgress → x.2.1 = .success

section Tracked
variable {sb : CompletionScoreboard} {P : List Submission} {C : List (Submission × Result × Result)} {d e : Submission}

section

variable (h : Tracked sb P C) (hd : d ∈ P)
include h hd

theorem Tracked.sequence : 0 < d.sequence.toNat ∧ d.sequence.toNat ≤ P.length := by
  obtain ⟨i, hi⟩ := getElem?_of_mem hd
  have hlt := (List.getElem?_eq_some_iff.1 hi).1
  have := (h.numbered i d hi).1
  omega

theorem Tracked.sequence_inj (he : e ∈ P) (hs : d.sequence = e.sequence) : d = e := by
  obtain ⟨i, hi⟩ := getElem?_of_mem hd
  obtain ⟨k, hk⟩ := getElem?_of_mem he
  have h1 := (h.numbered i d hi).1
  have h2 := (h.numbered k e hk).1
  have hik : i = k := by
    rw [hs] at h1
    omega
  rw [hik, hk] at hi
  exact (Option.some.inj hi).symm

theorem Tracked.entry (hn : sb.nextSequence.toNat ≤ d.sequence.toNat) :
    (sb.entryAt d.sequence).context = d.submitContext ∧ (sb.entryAt d.sequence).releaseGroup = d.trackedGroup ∧
      ((sb.entryAt d.sequence).state = .pending ↔ ¬ Final C d) := by
  obtain ⟨ho, hseq⟩ := h.held d hd hn
  obtain ⟨e, he, hc, hg, hp⟩ := h.live _ (slot_lt h.shape.capacity_pos d.sequence) ho
  have hsame : e = d := h.sequence_inj he hd ((congrArg SubmitContext.sequence hc).symm.trans hseq)
  subst hsame
  exact ⟨hc, hg, hp⟩

theorem Tracked.pending (hf : ¬ Final C d) :
    sb.nextSequence.toNat ≤ d.sequence.toNat ∧ (sb.entryAt d.sequence).state = .pending := by
  have hn : sb.nextSequence.toNat ≤ d.sequence.toNat := by
    by_contra hlt
    exact hf (h.retired d hd (by omega))
  exact ⟨hn, (h.entry hd hn).2.2.2 hf⟩

theorem Tracked.namesPending (hf : ¬ Final C d) : Net.namesPending sb d.submitContext := by
  obtain ⟨hn, hp⟩ := h.pending hd hf
  have hplaced := h.shape.placed_entryAt (h.held d hd hn).1
  have hhigh := hplaced.high
  rw [(h.held d hd hn).2] at hhigh
  have hle : sb.nextSequence ≤ d.sequence := UInt64.le_iff_toNat_le.2 hn
  obtain ⟨i, hi⟩ := getElem?_of_mem hd
  refine ⟨fun hz => ?_, (h.numbered i d hi).2.trans h.generation.symm, hle, ?_, hp, ?_⟩
  · have := h.shape.capacity_pos
    rw [hz] at this
    exact absurd this (by decide)
  · show (d.sequence - sb.nextSequence).toNat < _
    rw [UInt64.toNat_sub_of_le _ _ hle]
    omega
  · show submitContextMatches (sb.entryAt d.sequence).context _ = true
    rw [(h.entry hd hn).1]
    simp [submitContextMatches]

end

variable {x : Submission × Result × Result}

theorem final_concat (hx : x.2.1 ≠ .inProgress) : Final (C ++ [x]) d ↔ Final C d ∨ d = x.1 := by
  constructor
  · rintro ⟨result, tracked, hm, hr⟩
    rcases mem_append.1 hm with hm | hm
    · exact .inl ⟨result, tracked, hm, hr⟩
    · rw [mem_singleton] at hm
      exact .inr (congrArg Prod.fst hm)
  · rintro (⟨result, tracked, hm, hr⟩ | rfl)
    · exact ⟨result, tracked, mem_append_left _ hm, hr⟩
    · exact ⟨x.2.1, x.2.2, mem_append_right _ (mem_singleton_self _), hx⟩

theorem final_concat_open (hx : x.2.1 = .inProgress) : Final (C ++ [x]) d ↔ Final C d := by
  constructor
  · rintro ⟨result, tracked, hm, hr⟩
    rcases mem_append.1 hm with hm | hm
    · exact ⟨result, tracked, hm, hr⟩
    · rw [mem_singleton] at hm
      exact absurd ((congrArg (·.2.1) hm).trans hx) hr
  · rintro ⟨result, tracked, hm, hr⟩
    exact ⟨result, tracked, mem_append_left _ hm, hr⟩

/-! ## The calls -/

variable {groups : Nat → ReleaseGroup}

theorem Tracked.submit (h : Tracked sb P C) (hseq : d.sequence.toNat = P.length + 1) (hgen : d.generation = Rma.generation)
    (hs : (trackSubmit ⟨sb, groups⟩ d.submitContext d.trackedGroup).1 = .success) :
    Tracked (trackSubmit ⟨sb, groups⟩ d.submitContext d.trackedGroup).2.scoreboard (P ++ [d]) C := by
  rcases trackSubmit_cases ⟨sb, groups⟩ d.submitContext d.trackedGroup with ⟨hf, -⟩ |
    ⟨-, hmax, hcgen, hlow, hhigh, hfree, he⟩
  · exact absurd hs hf
  rw [he]
  have hshape := h.shape.submitEntry d.trackedGroup hmax hcgen (UInt64.le_iff_toNat_le.1 hlow)
    (toNat_lt_of_sub_lt hlow hhigh) hfree
  have hat : ∀ q, (sb.submitEntry d.submitContext d.trackedGroup).entryAt q = if sb.slot q = sb.slot d.sequence then
      ⟨d.submitContext, d.trackedGroup, .success, .pending⟩ else sb.entryAt q := entryAt_write _ _ rfl rfl
  -- the slot of `d` was free
  have hne : ∀ e ∈ P, sb.nextSequence.toNat ≤ e.sequence.toNat → sb.slot e.sequence ≠ sb.slot d.sequence := by
    intro e hm hn hslot
    have ho := (h.held e hm hn).1
    rw [entryAt_of_slot hslot] at ho
    exact ho hfree
  have hnew : ¬ Final C d := by
    rintro ⟨result, tracked, hm, -⟩
    have hle : d.sequence.toNat ≤ P.length := (h.sequence (h.closed _ hm)).2
    omega
  refine ⟨hshape, h.generation, ?_, fun x hx => mem_append_left _ (h.closed x hx), ?_, ?_, ?_, ?_, h.error⟩
  · intro i e hi
    by_cases hlt : i < P.length
    · rw [getElem?_append_left hlt] at hi
      exact h.numbered i e hi
    · rw [getElem?_append_right (not_lt.1 hlt)] at hi
      obtain ⟨hz, rfl⟩ : i - P.length = 0 ∧ d = e := by
        cases hk : i - P.length with
        | zero =>
          rw [hk] at hi
          exact ⟨rfl, Option.some.inj hi⟩
        | succ k =>
          rw [hk] at hi
          cases hi
      exact ⟨by omega, hgen⟩
  · have := h.next
    rw [length_append, length_singleton]
    exact ⟨this.1, by show sb.nextSequence.toNat ≤ _; omega⟩
  · intro e hm hlt
    rcases mem_append.1 hm with hm | hm
    · exact h.retired e hm hlt
    · have hlow' := UInt64.le_iff_toNat_le.1 hlow
      rw [mem_singleton.1 hm] at hlt
      exact absurd hlow' (not_le.2 hlt)
  · intro e hm hn
    rcases mem_append.1 hm with hm | hm
    · rw [hat, if_neg (hne e hm hn)]
      exact h.held e hm hn
    · rw [mem_singleton.1 hm, hat]
      simp [Occupied, Submission.submitContext]
  · intro j hj ho
    by_cases hslot : j = sb.slot d.sequence
    · subst hslot
      have hself : (sb.submitEntry d.submitContext d.trackedGroup).entries (sb.slot d.sequence) =
          ⟨d.submitContext, d.trackedGroup, .success, .pending⟩ := update_self ..
      rw [hself]
      exact ⟨d, mem_append_right _ (mem_singleton_self d), rfl, rfl, iff_of_true rfl hnew⟩
    · have hold : (sb.submitEntry d.submitContext d.trackedGroup).entries j = sb.entries j := update_of_ne hslot _ _
      rw [hold] at ho ⊢
      obtain ⟨e, hm, hrest⟩ := h.live j hj ho
      exact ⟨e, mem_append_left _ hm, hrest⟩

theorem Tracked.dropEntry (h : Tracked sb (P ++ [d]) C) (hclosed : ∀ x ∈ C, x.1 ∈ P) (hf : ¬ Final C d) :
    Tracked (sb.dropEntry d.sequence) P C := by
  have hd : d ∈ P ++ [d] := mem_append_right _ (mem_singleton_self d)
  obtain ⟨hn, hp⟩ := h.pending hd hf
  have hlast : d.sequence.toNat = P.length + 1 := (h.numbered P.length d (by simp)).1
  have hat := entryAt_write sb (sb.dropEntry d.sequence) rfl rfl
  have hlt : ∀ e ∈ P, e.sequence.toNat ≤ P.length := by
    intro e he
    obtain ⟨i, hi⟩ := getElem?_of_mem he
    have hi' := (List.getElem?_eq_some_iff.1 hi).1
    have := (h.numbered i e (by rw [getElem?_append_left hi']; exact hi)).1
    omega
  have hslot : ∀ e ∈ P, sb.nextSequence.toNat ≤ e.sequence.toNat → sb.slot e.sequence ≠ sb.slot d.sequence := by
    intro e he hle hs
    have h1 := (h.held e (mem_append_left _ he) hle).2
    rw [entryAt_of_slot hs, (h.held d hd hn).2] at h1
    have := hlt e he
    rw [← h1] at this
    omega
  refine ⟨h.shape.dropEntry (h.held d hd hn).1, h.generation, ?_, hclosed, ?_, ?_, ?_, ?_, h.error⟩
  · intro i e hi
    refine h.numbered i e ?_
    rw [getElem?_append_left (List.getElem?_eq_some_iff.1 hi).1]
    exact hi
  · exact ⟨h.next.1, by show sb.nextSequence.toNat ≤ _; omega⟩
  · exact fun e he hlt => h.retired e (mem_append_left _ he) hlt
  · intro e he hle
    rw [hat, if_neg (hslot e he hle)]
    exact h.held e (mem_append_left _ he) hle
  · intro j hj ho
    by_cases hjs : j = sb.slot d.sequence
    · subst hjs
      have hself : (sb.dropEntry d.sequence).entries (sb.slot d.sequence) = completionEntryReset := update_self ..
      rw [hself] at ho
      exact absurd rfl ho
    · have hold : (sb.dropEntry d.sequence).entries j = sb.entries j := update_of_ne hjs _ _
      rw [hold] at ho ⊢
      obtain ⟨e, he, hc, hrest⟩ := h.live j hj ho
      rcases mem_append.1 he with he | he
      · exact ⟨e, he, hc, hrest⟩
      · have hde : e = d := mem_singleton.1 he
        have hhome := (h.shape.placed j hj ho).home
        rw [hc, hde] at hhome
        exact absurd hhome.symm hjs

variable {tracked : Result}

theorem Tracked.completeEntry (h : Tracked sb P C) (hd : d ∈ P) (hf : ¬ Final C d) {result : Result}
    (hr : result ≠ .inProgress) : Tracked (sb.completeEntry d.sequence result) P (C ++ [(d, result, tracked)]) := by
  obtain ⟨hn, hp⟩ := h.pending hd hf
  obtain ⟨ho, hseq⟩ := h.held d hd hn
  obtain ⟨hctx, hgroup, -⟩ := h.entry hd hn
  have hat := entryAt_write sb (sb.completeEntry d.sequence result) rfl rfl
  have hfinal : ∀ e, Final (C ++ [(d, result, tracked)]) e ↔ Final C e ∨ e = d := fun e => final_concat hr
  refine ⟨h.shape.completeEntry result ho, h.generation, h.numbered, ?_, h.next, ?_, ?_, ?_, ?_⟩
  · intro x hx
    rcases mem_append.1 hx with hx | hx
    · exact h.closed x hx
    · rw [mem_singleton.1 hx]
      exact hd
  · intro e he hlt
    exact (hfinal e).2 (.inl (h.retired e he hlt))
  · intro e he hle
    rw [hat]
    split_ifs with hs
    · refine ⟨by simp [Occupied], ?_⟩
      rw [← entryAt_of_slot hs]
      exact (h.held e he hle).2
    · exact h.held e he hle
  · intro j hj hoj
    by_cases hjs : j = sb.slot d.sequence
    · subst hjs
      have hself : (sb.completeEntry d.sequence result).entries (sb.slot d.sequence) =
          { sb.entryAt d.sequence with result := result, state := .complete } := update_self ..
      rw [hself]
      exact ⟨d, hd, hctx, hgroup, iff_of_false (by simp) fun hno => hno ((hfinal d).2 (.inr rfl))⟩
    · have hold : (sb.completeEntry d.sequence result).entries j = sb.entries j := update_of_ne hjs _ _
      rw [hold] at hoj ⊢
      obtain ⟨e, he, hc, hg, hst⟩ := h.live j hj hoj
      refine ⟨e, he, hc, hg, ?_⟩
      have hne : e ≠ d := by
        rintro rfl
        have hhome := (h.shape.placed j hj hoj).home
        rw [hc] at hhome
        exact hjs hhome.symm
      rw [hst, hfinal, or_iff_left hne]
  · show (if result ≠ .success ∧ sb.firstError = .success then result else sb.firstError) = .success ↔ _
    have hall : (∀ x ∈ C ++ [(d, result, tracked)], x.2.1 ≠ .inProgress → x.2.1 = .success) ↔
        sb.firstError = .success ∧ result = .success := by
      rw [forall_mem_append, ← h.error, forall_mem_singleton]
      exact and_congr_right fun _ => ⟨fun hs => hs hr, fun hs _ => hs⟩
    rw [hall]
    split_ifs with hc
    · exact iff_of_false hc.1 fun hs => hc.1 hs.2
    · constructor
      · intro hs
        exact ⟨hs, not_not.1 fun hne => hc ⟨hne, hs⟩⟩
      · exact fun hs => hs.1

theorem Tracked.retireHead (h : Tracked sb P C) (hc : sb.headComplete) : Tracked sb.retireHead P C := by
  have ho : Occupied (sb.entryAt sb.nextSequence) := by simp [Occupied, hc.1]
  have hsucc := h.shape.next_succ hc
  obtain ⟨d, hd, hctx, -, hst⟩ := h.live _ (slot_lt h.shape.capacity_pos _) ho
  have hdseq : d.sequence = sb.nextSequence := (congrArg SubmitContext.sequence hctx).symm.trans hc.2.2
  have hfinal : Final C d := by
    by_contra hf
    have hp : (sb.entryAt sb.nextSequence).state = .pending := hst.2 hf
    rw [hc.1] at hp
    cases hp
  have hle := (h.sequence hd).2
  have hat := entryAt_write sb sb.retireHead rfl rfl
  rw [hdseq] at hle
  refine ⟨h.shape.retireHead hc, h.generation, h.numbered, h.closed, ?_, ?_, ?_, ?_, h.error⟩
  · show 0 < (sb.nextSequence + 1).toNat ∧ (sb.nextSequence + 1).toNat ≤ _
    omega
  · intro e he hlt
    have hlt' : e.sequence.toNat < (sb.nextSequence + 1).toNat := hlt
    by_cases heq : e.sequence = sb.nextSequence
    · rw [h.sequence_inj he hd (heq.trans hdseq.symm)]
      exact hfinal
    · refine h.retired e he ?_
      have : e.sequence.toNat ≠ sb.nextSequence.toNat := fun hn => heq (UInt64.toNat_inj.1 hn)
      omega
  · intro e he hge
    have hge' : (sb.nextSequence + 1).toNat ≤ e.sequence.toNat := hge
    have hheld := h.held e he (by omega)
    have hslot : sb.slot e.sequence ≠ sb.slot sb.nextSequence := by
      intro hs
      have h1 := hheld.2
      rw [entryAt_of_slot hs, hc.2.2] at h1
      rw [← h1] at hge'
      omega
    rw [hat, if_neg hslot]
    exact hheld
  · intro j hj hoj
    have hjs : j ≠ sb.slot sb.nextSequence := by
      rintro rfl
      have hself : sb.retireHead.entries (sb.slot sb.nextSequence) = completionEntryReset := update_self ..
      rw [hself] at hoj
      exact hoj rfl
    have hold : sb.retireHead.entries j = sb.entries j := update_of_ne hjs _ _
    rw [hold] at hoj ⊢
    exact h.live j hj hoj

theorem Tracked.retire (k : Nat) (h : Tracked sb P C) (advanced : Nat) : Tracked (sb.retire k advanced).1 P C := by
  induction k generalizing sb advanced with
  | zero => exact h
  | succ k ih =>
    by_cases hc : sb.headComplete
    · rw [CompletionScoreboard.retire, if_pos hc]
      exact ih (h.retireHead hc) _
    · rw [CompletionScoreboard.retire, if_neg hc]
      exact h

theorem Tracked.completion (h : Tracked sb P C) (hd : d ∈ P) (hf : ¬ Final C d) {result : Result} (hr : result ≠ .inProgress)
    (hs : (trackCompletion ⟨sb, groups⟩ d.submitContext result).1 = .success) :
    Tracked (trackCompletion ⟨sb, groups⟩ d.submitContext result).2.2.scoreboard P (C ++ [(d, result, tracked)]) ∧
      ((trackCompletion ⟨sb, groups⟩ d.submitContext result).2.2.scoreboard.entryAt
        (trackCompletion ⟨sb, groups⟩ d.submitContext result).2.2.scoreboard.nextSequence).state ≠ .complete := by
  rcases trackCompletion_cases ⟨sb, groups⟩ d.submitContext result with ⟨hno, -⟩ | ⟨-, hi⟩ | ⟨-, -, hp, -, he⟩
  · exact absurd hs hno
  · exact absurd hi hr
  · rw [he]
    exact ⟨(h.completeEntry hd hf hr).retire _ 0, (h.shape.completeEntry result hp.occupied).retire_head _ le_rfl 0⟩

theorem Tracked.concat_open (h : Tracked sb P C) (hd : d ∈ P) : Tracked sb P (C ++ [(d, .inProgress, tracked)]) := by
  have hfinal : ∀ e, Final (C ++ [(d, .inProgress, tracked)]) e ↔ Final C e := fun e => final_concat_open rfl
  refine ⟨h.shape, h.generation, h.numbered, ?_, h.next, fun e he hlt => (hfinal e).2 (h.retired e he hlt), h.held,
    fun j hj ho => ?_, ?_⟩
  · intro x hx
    rcases mem_append.1 hx with hx | hx
    · exact h.closed x hx
    · rw [mem_singleton.1 hx]
      exact hd
  · obtain ⟨e, he, hc, hg, hst⟩ := h.live j hj ho
    exact ⟨e, he, hc, hg, by rw [hfinal]; exact hst⟩
  · rw [forall_mem_append, ← h.error, forall_mem_singleton, and_iff_left]
    exact fun hne => absurd rfl hne

theorem tracked_init {capacity : UInt32} (h : CompletionScoreboard.init capacity Rma.generation 1 = .ok sb) :
    Tracked sb [] [] := by
  have hshape := (recorded_init h).ledger.shape
  unfold CompletionScoreboard.init at h
  split_ifs at h
  obtain rfl := Except.ok.inj h
  refine ⟨hshape, rfl, fun i d hi => ?_, fun x hx => absurd hx not_mem_nil, ⟨one_pos, le_rfl⟩,
    fun d hd => absurd hd not_mem_nil, fun d hd => absurd hd not_mem_nil, fun j _ ho => absurd rfl ho, ?_⟩
  · cases hi
  · exact iff_of_true rfl fun x hx => absurd hx not_mem_nil

end Tracked

/-! ## Runs of calls -/

section Calls
variable {n : Nat} {p : Fin n} {f f' : Fabric (Fin n)} {P ds : List Submission} {C : List (Submission × Result × Result)}

def Numbered (k : Nat) (ds : List Submission) : Prop :=
  ∀ i d, ds[i]? = some d → d.sequence.toNat = k + i + 1 ∧ d.generation = Rma.generation

theorem Numbered.head {k : Nat} {d : Submission} (h : Numbered k (d :: ds)) :
    d.sequence.toNat = k + 1 ∧ d.generation = Rma.generation := h 0 d rfl

theorem Numbered.tail {k : Nat} {d : Submission} (h : Numbered k (d :: ds)) : Numbered (k + 1) ds := by
  intro i e hi
  have := h (i + 1) e hi
  exact ⟨by omega, this.2⟩

theorem onBoard_self (out : Tracker) : (f.onBoard p out).boards p = out.scoreboard := update_self ..

theorem onBoard_ne {q : Fin n} (hq : q ≠ p) (out : Tracker) : (f.onBoard p out).boards q = f.boards q := update_of_ne hq _ _

theorem Tracked.submitAll (h : Tracked (f.boards p) P C) (hn : Numbered P.length ds)
    (hs : Rma.submitAll p f ds = some f') : Tracked (f'.boards p) (P ++ ds) C ∧ ∀ q ≠ p, f'.boards q = f.boards q := by
  induction ds generalizing f P with
  | nil =>
    cases hs
    rw [append_nil]
    exact ⟨h, fun _ _ => rfl⟩
  | cons d ds ih =>
    unfold Rma.submitAll at hs
    dsimp only at hs
    split_ifs at hs with hone
    obtain ⟨hseq, hgen⟩ := hn.head
    have hstep := h.submit hseq hgen hone
    have hboard : (f.call (.submit p d.submitContext d.trackedGroup)).2.boards p = _ := onBoard_self _
    rw [← hboard] at hstep
    have hlen : Numbered (P ++ [d]).length ds := by
      rw [length_append]
      exact hn.tail
    obtain ⟨hlast, hrest⟩ := ih hstep hlen hs
    rw [append_assoc] at hlast
    exact ⟨hlast, fun q hq => (hrest q hq).trans (onBoard_ne hq _)⟩

end Calls

end FlagCX.Rma
