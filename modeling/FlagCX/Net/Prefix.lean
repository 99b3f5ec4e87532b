import FlagCX.Net.Scoreboard

/-!
# The results that a scoreboard has recorded

`Agrees done sb` says that the scoreboard has taken the results `done`, by the number of their sequence: the sequences
before its next one have a result, that one has none, and no error is among the results while its first error is success.

* `Agrees.submit`, `Agrees.completion` : the calls keep it.
-/

namespace FlagCX.Net
open CompletionScoreboard List Function Option

/-- The scoreboard agrees with the results recorded so far. -/
structure Agrees (done : Nat → Option Result) (sb : CompletionScoreboard) : Prop where
  ledger : ∃ retired, sb.Ledger 1 retired fun q => if (done q.toNat).isSome then 1 else 0
  head : (sb.entryAt sb.nextSequence).state ≠ .complete
  errors : sb.firstError = .success → ∀ n r, done n = some r → r = .success

section Agrees
variable {done : Nat → Option Result} {sb : CompletionScoreboard}

theorem Agrees.isSome (h : Agrees done sb) {n : Nat} (hpos : 0 < n) (hlt : n < sb.nextSequence.toNat) : (done n).isSome := by
  obtain ⟨retired, hl⟩ := h.ledger
  have hmem : n ∈ retired.map UInt64.toNat := by
    have hnext := hl.next
    rw [UInt64.toNat_one] at hnext
    rw [hl.order, mem_range'_1, UInt64.toNat_one]
    omega
  obtain ⟨q, hq, rfl⟩ := mem_map.1 hmem
  by_contra hnone
  have hone := hl.closed q (.inl hq)
  rw [if_neg hnone] at hone
  cases hone

theorem Agrees.next_none (h : Agrees done sb) : done sb.nextSequence.toNat = none := by
  obtain ⟨retired, hl⟩ := h.ledger
  have hzero := hl.pristine sb.nextSequence ?_
  · by_contra hsome
    rw [if_pos (isSome_iff_ne_none.2 hsome)] at hzero
    cases hzero
  · rintro (hmem | hset)
    · exact lt_irrefl _ (hl.lt_next hmem)
    · exact h.head hset.1

theorem agrees_init {capacity : UInt32} {generation : UInt64} (h : CompletionScoreboard.init capacity generation 1 = .ok sb) :
    Agrees (fun _ => none) sb := by
  have hr := recorded_init h
  refine ⟨⟨[], ?_⟩, hr.head, fun _ _ _ hn => nomatch hn⟩
  exact hr.ledger

theorem Agrees.submit {t : Tracker} (h : Agrees done t.scoreboard) (context : SubmitContext) :
    Agrees done (trackSubmit t context none).2.scoreboard := by
  rcases trackSubmit_cases t context none with ⟨-, he⟩ | ⟨-, hmax, hgen, hlow, hhigh, hfree, he⟩
  · rw [he]
    exact h
  · obtain ⟨retired, hl⟩ := h.ledger
    rw [he]
    refine ⟨⟨retired, ?_⟩, head_write t.scoreboard _ rfl rfl rfl (by simp) h.head, h.errors⟩
    exact hl.idle (hl.shape.submitEntry none hmax hgen hlow (toNat_lt_of_sub_lt hlow hhigh) hfree) rfl
      (settled_write _ _ rfl rfl (by simp) (by simp [hfree]))

theorem retire_firstError (n : Nat) (sb : CompletionScoreboard) (advanced : Nat) :
    (sb.retire n advanced).1.firstError = sb.firstError := by
  induction n generalizing sb advanced with
  | zero => rfl
  | succ n ih =>
    rw [CompletionScoreboard.retire]
    split_ifs
    · exact ih ..
    · rfl

theorem Agrees.completion {t : Tracker} (h : Agrees done t.scoreboard) (context : SubmitContext) (r : Result) :
    ((trackCompletion t context r).1 ≠ .success ∧ (trackCompletion t context r).2 = (0, t)) ∨
    (trackCompletion t context r = (.success, 0, t) ∧ r = .inProgress) ∨
    ((trackCompletion t context r).1 = .success ∧ r ≠ .inProgress ∧ done context.sequence.toNat = none ∧
      Agrees (Function.update done context.sequence.toNat (some r)) (trackCompletion t context r).2.2.scoreboard ∧
      (trackCompletion t context r).2.2.scoreboard.nextSequence.toNat =
        t.scoreboard.nextSequence.toNat + (trackCompletion t context r).2.1) := by
  rcases trackCompletion_cases t context r with hfail | hwait | ⟨hok, hr, hp, hadv, hsb⟩
  · exact .inl hfail
  · exact .inr (.inl hwait)
  obtain ⟨retired, hl⟩ := h.ledger
  have hnone : done context.sequence.toNat = none := by
    have hzero := hl.pristine context.sequence ?_
    · by_contra hsome
      rw [if_pos (isSome_iff_ne_none.2 hsome)] at hzero
      cases hzero
    · rintro (hmem | hset)
      · have hlow := (hl.shape.placed_entryAt hp.occupied).low
        rw [hp.sequence] at hlow
        exact absurd (hl.lt_next hmem) (by omega)
      · exact absurd (hp.pending.symm.trans hset.1) nofun
  have hl' := hl.completeEntry hp.pending hp.sequence r
  have hnow : (fun q : UInt64 => if (update done context.sequence.toNat (some r) q.toNat).isSome then 1 else 0) =
      update (fun q : UInt64 => if (done q.toNat).isSome then 1 else 0) context.sequence
        ((if (done context.sequence.toNat).isSome then 1 else 0) + 1) := by
    funext q
    by_cases hq : q = context.sequence
    · rw [hq, update_self, update_self, hnone]
      rfl
    · rw [update_of_ne hq, update_of_ne fun he => hq (UInt64.toNat_inj.1 he)]
  rw [← hnow] at hl'
  have hret := hl'.retire t.scoreboard.inFlight 0
  refine .inr (.inr ⟨hok, hr, hnone, ⟨?_, ?_, ?_⟩, ?_⟩)
  · rw [hsb]
    exact ⟨_, hret⟩
  · rw [hsb]
    exact hl'.shape.retire_head _ le_rfl 0
  · rw [hsb, retire_firstError]
    intro hfirst n r' hn
    have hsuccess : r = .success ∧ t.scoreboard.firstError = .success := by
      rw [completeEntry] at hfirst
      by_cases he : r ≠ .success ∧ t.scoreboard.firstError = .success
      · rw [if_pos he] at hfirst
        exact absurd hfirst he.1
      · rw [if_neg he] at hfirst
        exact ⟨not_not.1 fun hne => he ⟨hne, hfirst⟩, hfirst⟩
    by_cases hn' : n = context.sequence.toNat
    · rw [hn', update_self] at hn
      cases hn
      exact hsuccess.1
    · rw [update_of_ne hn'] at hn
      exact h.errors hsuccess.2 n r' hn
  · rw [hsb, hadv, retire_snd, zero_add, hret.next, length_append, hl.next, add_assoc]

end Agrees

end FlagCX.Net
