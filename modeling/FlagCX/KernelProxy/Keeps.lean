import FlagCX.KernelProxy.Moves
import FlagCX.KernelProxy.Post

/-!
# What progress leaves alone

* `Keeps`   : the states, staging slots and submissions of all requests, the counts and the scoreboard stay.
-/

namespace FlagCX.KernelProxy

open Transport

/-- The requests stay in their slots with what they were submitted as, and so do the counts and the scoreboard. -/
structure Keeps (t t' : Transport) : Prop where
  state : ∀ i, (t'.requests i).state = (t.requests i).state
  stagingSlot : ∀ i, (t'.requests i).stagingSlot = (t.requests i).stagingSlot
  submit : ∀ i, (t'.requests i).submit = (t.requests i).submit
  capacity : t'.capacity = t.capacity
  nativeInflight : t'.nativeInflight = t.nativeInflight
  scoreboard : t'.scoreboard = t.scoreboard
  nextSequence : t'.nextSequence = t.nextSequence
  generation : t'.generation = t.generation
  orderingKey : t'.orderingKey = t.orderingKey

section
variable {t t' t'' : Transport} {slot : Nat}

theorem Keeps.refl (t : Transport) : Keeps t t := ⟨fun _ => rfl, fun _ => rfl, fun _ => rfl, rfl, rfl, rfl, rfl, rfl, rfl⟩

theorem Keeps.trans (h : Keeps t t') (h' : Keeps t' t'') : Keeps t t'' where
  state i := (h'.state i).trans (h.state i)
  stagingSlot i := (h'.stagingSlot i).trans (h.stagingSlot i)
  submit i := (h'.submit i).trans (h.submit i)
  capacity := h'.capacity.trans h.capacity
  nativeInflight := h'.nativeInflight.trans h.nativeInflight
  scoreboard := h'.scoreboard.trans h.scoreboard
  nextSequence := h'.nextSequence.trans h.nextSequence
  generation := h'.generation.trans h.generation
  orderingKey := h'.orderingKey.trans h.orderingKey

theorem keeps_setDomain (t : Transport) (d : Nat) (domain : Domain) : Keeps t (t.setDomain d domain) :=
  ⟨fun _ => rfl, fun _ => rfl, fun _ => rfl, rfl, rfl, rfl, rfl, rfl, rfl⟩

theorem keeps_setRequest {r : Request} (hstate : r.state = (t.requests slot).state)
    (hslot : r.stagingSlot = (t.requests slot).stagingSlot) (hsubmit : r.submit = (t.requests slot).submit) :
    Keeps t (t.setRequest slot r) := by
  have hall : ∀ i, ((t.setRequest slot r).requests i).state = (t.requests i).state ∧
      ((t.setRequest slot r).requests i).stagingSlot = (t.requests i).stagingSlot ∧
      ((t.setRequest slot r).requests i).submit = (t.requests i).submit := by
    intro i
    by_cases hi : i = slot
    · rw [hi, setRequest_self]
      exact ⟨hstate, hslot, hsubmit⟩
    · rw [setRequest_ne t hi]
      exact ⟨rfl, rfl, rfl⟩
  exact ⟨fun i => (hall i).1, fun i => (hall i).2.1, fun i => (hall i).2.2, rfl, rfl, rfl, rfl, rfl, rfl⟩

theorem keeps_failCovered (t : Transport) (d v : Nat) (result : Result) : Keeps t (t.failCovered d v result) := by
  refine ⟨fun i => ?_, fun i => ?_, fun i => ?_, rfl, rfl, rfl, rfl, rfl, rfl⟩ <;>
  · dsimp only [failCovered]
    split_ifs <;> rfl

theorem finishFlush_keeps (t : Transport) (d : Nat) (result : Result) : Keeps t (t.finishFlush d result).2 := by
  rw [finishFlush]
  cases (t.domains d).completeFlush result with
  | error e => exact Keeps.refl t
  | ok domain =>
    split_ifs
    · exact (keeps_setDomain t d domain).trans (keeps_failCovered ..)
    · exact keeps_setDomain t d domain

theorem testFlush_keeps (t : Transport) (d : Nat) (answer : TestAnswer) : Keeps t (t.testFlush d answer).2.1 := by
  rw [testFlush]
  split_ifs
  · exact Keeps.refl t
  · exact finishFlush_keeps t d answer.result
  · exact Keeps.refl t

theorem advancePrefix_keeps (t : Transport) (d : Nat) : Keeps t (t.advancePrefix d).2 := by
  rw [advancePrefix]
  split
  · exact Keeps.refl t
  · exact keeps_setDomain ..

theorem postFlush_keeps (t : Transport) (d range : Nat) (answer : PostAnswer) : Keeps t (t.postFlush d range answer).2.1 := by
  rw [postFlush]
  split_ifs
  · exact (keeps_setDomain ..).trans (finishFlush_keeps ..)
  · exact keeps_setDomain ..

theorem startFlush_keeps (t : Transport) (d : Nat) (answer : PostAnswer) : Keeps t (t.startFlush d answer).2.1 := by
  rw [startFlush]
  by_cases hstart : (t.domains d).flushRequest = none ∧
      (t.domains d).visibleGetSequence < (t.domains d).dataCompletedGetSequence
  swap
  · rw [if_neg hstart]
    exact Keeps.refl t
  rw [if_pos hstart]
  cases t.flushRange d with
  | none =>
    dsimp only
    split
    · exact Keeps.refl t
    · exact keeps_setDomain ..
  | some range =>
    dsimp only
    split_ifs
    · exact postFlush_keeps ..
    · split
      · exact Keeps.refl t
      · exact (keeps_setDomain ..).trans (postFlush_keeps ..)

theorem progressDomain_keeps (t : Transport) (slot : Nat) (flush : TestAnswer) (post : PostAnswer)
    (calls : List Callback) : Keeps t (t.progressDomain slot flush post calls).transport := by
  rw [progressDomain]
  dsimp only
  split
  · exact Keeps.refl t
  · rename_i d _
    split_ifs
    · exact Keeps.refl t
    · exact testFlush_keeps ..
    · exact (testFlush_keeps t d flush).trans (advancePrefix_keeps ..)
    all_goals exact ((testFlush_keeps t d flush).trans (advancePrefix_keeps ..)).trans (startFlush_keeps ..)

theorem progressRequest_keeps (t : Transport) (slot : Nat) (data flush : TestAnswer) (post : PostAnswer) :
    Keeps t (t.progressRequest slot data flush post).transport := by
  rw [progressRequest]
  dsimp only
  generalize (if data.result ≠ .success then data.result else (t.requests slot).completionResult) = c
  have htested : Keeps t (t.setRequest slot { t.requests slot with completionResult := c }) := keeps_setRequest rfl rfl rfl
  have hpending : Keeps t ((t.setRequest slot { t.requests slot with completionResult := c }).setRequest slot
      { t.requests slot with
        completionResult := c, request := none, getDataComplete := true, completionStage := .flushPending }) := by
    refine htested.trans (keeps_setRequest ?_ ?_ ?_) <;> rw [setRequest_self]
  split_ifs
  · exact Keeps.refl t
  · exact progressDomain_keeps ..
  · exact Keeps.refl t
  · exact htested
  · exact htested
  · exact hpending
  · exact hpending.trans (progressDomain_keeps ..)

theorem renumber_fields (d q : Nat) (r : Request) : (renumber d q r).state = r.state ∧
    (renumber d q r).stagingSlot = r.stagingSlot ∧ (renumber d q r).submit = r.submit := by
  rw [renumber]
  split_ifs <;> exact ⟨rfl, rfl, rfl⟩

theorem removeGetVisibilitySequence_keeps (t : Transport) (slot : Nat) : Keeps t (t.removeGetVisibilitySequence slot).2 := by
  have hrenumbered : ∀ d q, Keeps t { t with
      requests := fun i => if i < t.capacity then renumber d q (t.requests i) else t.requests i } := by
    intro d q
    refine ⟨fun i => ?_, fun i => ?_, fun i => ?_, rfl, rfl, rfl, rfl, rfl, rfl⟩ <;>
    · dsimp only
      split_ifs
      · exact (by first | exact (renumber_fields d q _).1 | exact (renumber_fields d q _).2.1 |
          exact (renumber_fields d q _).2.2)
      · rfl
  rw [removeGetVisibilitySequence]
  split_ifs
  · exact Keeps.refl t
  · split
    · exact Keeps.refl t
    · rename_i d _
      split_ifs
      · exact Keeps.refl t
      · exact Keeps.refl t
      · split
        · exact hrenumbered ..
        · exact (hrenumbered ..).trans (keeps_setDomain ..)

end

end FlagCX.KernelProxy
