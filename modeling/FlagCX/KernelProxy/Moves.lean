import FlagCX.KernelProxy.Sound

/-!
# The moves of the transport

Every call of the kernel proxy but the reservation is a sequence of moves, and a move says all that can happen at that
point: which slot or domain it writes, under which condition, and what is to be noted of it.

* `Move`, `Moves` : the moves and their sequences.
* `progressRequest_moves`, `requireGetFlush_moves`, ... : the calls as moves; `progressRequest_cases` says how a progress
  call ends.
* `Sound.move`    : a move keeps the invariant.
-/

namespace FlagCX.KernelProxy
open List

open Net Lib Transport

/-! ## Writes of a domain -/

namespace Transport

/-- The flush of the domain is over: what it covered is visible, and takes its error. -/
def finished (t : Transport) (d : Nat) (result : Result) : Transport :=
  let t' := t.setDomain d { t.domains d with
    flushRequest := none, flushResult := result, visibleGetSequence := (t.domains d).flushTargetGetSequence }
  if result ≠ .success then t'.failCovered d (t.domains d).visibleGetSequence result else t'

/-- The flush target before the flush is posted. -/
def aimed (t : Transport) (d : Nat) : Transport :=
  t.setDomain d { t.domains d with flushTargetGetSequence := nextTarget (t.domains d) }

def held (t : Transport) (d : Nat) (request : Option Nat) : Transport :=
  t.setDomain d { t.domains d with flushRequest := request }

/-- Slot `i` holds a request of the domain in the range `(v, w]` that has not failed. -/
def Unfailed (t : Transport) (d v w i : Nat) : Prop :=
  ∃ s, t.place i = some (d, s) ∧ v < s ∧ s ≤ w ∧ (t.requests i).completionResult = .success

end Transport

def TestAnswer.Final (answer : TestAnswer) : Prop := answer.result ≠ .success ∨ answer.done = true

/-- The posted flush leaves nothing to wait for: it failed or finished at once. -/
def PostAnswer.Immediate (answer : PostAnswer) : Prop :=
  answer.result ≠ .inProgress ∧ (answer.result ≠ .success ∨ answer.request = none)

/-! ## Moves -/

/-- What is noted of a call: the data of a request is complete, the flush of a domain was tested, a flush was posted that
covers some requests. -/
inductive Note where
  | data (who : Nat)
  | test (d : Nat) (answer : TestAnswer)
  | post (d : Nat) (covered : List Nat) (answer : PostAnswer)
  deriving DecidableEq

instance (answer : TestAnswer) : Decidable answer.Final := inferInstanceAs (Decidable (_ ∨ _))

def Callback.notes : Callback → List Note
  | .testData slot answer => if answer.Final then [.data slot] else []
  | .testFlush d answer => [.test d answer]
  | .postFlush d _ covered answer => [.post d covered answer]

/-- The removal leaves a range whose flush is to be retried with a request that has not failed, or empty. -/
def Transport.SafeRemoval (t : Transport) (slot d q : Nat) : Prop :=
  (t.domains d).flushRequest = none → (t.domains d).visibleGetSequence < q → q ≤ (t.domains d).flushTargetGetSequence →
    (∃ i, i ≠ slot ∧ t.Unfailed d (t.domains d).visibleGetSequence (t.domains d).flushTargetGetSequence i) ∨
      (t.domains d).flushTargetGetSequence = (t.domains d).visibleGetSequence + 1

/-- One move, with what is noted of it. Under `once` no request takes a second sequence, under `safe` every removal is
safe. -/
inductive Move (once safe : Prop) (t : Transport) : Transport → List Note → Prop
  | keep {t' : Transport} (hr : t'.requests = t.requests) (hd : t'.domains = t.domains)
      (hc : t'.capacity = t.capacity) : Move once safe t t' []
  | dataDone (slot : Nat) (c : Result) (hp : (t.requests slot).state = .posted)
      (hf : (t.requests slot).requiresGetFlush = false) :
      Move once safe t (t.setRequest slot { t.requests slot with completionResult := c }) [.data slot]
  | dataComplete (slot : Nat) (c : Result) (hslot : slot < t.capacity)
      (hp : (t.requests slot).state = .posted) (hs : (t.requests slot).completionStage = .dataPosted)
      (hf : (t.requests slot).requiresGetFlush = true) :
      Move once safe t (t.setRequest slot { t.requests slot with
        completionResult := c, request := none, getDataComplete := true, completionStage := .flushPending })
        [.data slot]
  | flushWait (d : Nat) (answer : TestAnswer) (hw : ¬ answer.Final) : Move once safe t t [.test d answer]
  | flushDone (d : Nat) (answer : TestAnswer) (hd : d < t.capacity) (hu : (t.domains d).inUse = true)
      (hr : (t.domains d).flushRequest ≠ none) (ha : answer.Final) :
      Move once safe t (t.finished d answer.result) [.test d answer]
  | advance (d c : Nat) (hd : d < t.capacity) (hu : (t.domains d).inUse = true)
      (hlow : (t.domains d).dataCompletedGetSequence ≤ c) (hhigh : c ≤ (t.domains d).issuedGetSequence)
      (hdata : ∀ s, (t.domains d).dataCompletedGetSequence < s → s ≤ c →
        ∃ i, t.place i = some (d, s) ∧ (t.requests i).getDataComplete = true) :
      Move once safe t (t.setDomain d { t.domains d with dataCompletedGetSequence := c }) []
  | skip (d : Nat) (hd : d < t.capacity) (hu : (t.domains d).inUse = true) (hr : (t.domains d).flushRequest = none)
      (ht : (t.domains d).flushTargetGetSequence = (t.domains d).visibleGetSequence)
      (hnone : ∀ i, ¬ t.Unfailed d (t.domains d).visibleGetSequence (t.domains d).dataCompletedGetSequence i) :
      Move once safe t (t.setDomain d { t.domains d with
        visibleGetSequence := (t.domains d).dataCompletedGetSequence
        flushTargetGetSequence := (t.domains d).dataCompletedGetSequence, flushResult := .success }) []
  | aim (d range : Nat) (hd : d < t.capacity) (hu : (t.domains d).inUse = true) (hr : (t.domains d).flushRequest = none)
      (hrange : t.Unfailed d (t.domains d).visibleGetSequence (nextTarget (t.domains d)) range) :
      Move once safe t (t.aimed d) []
  | post (d range : Nat) (answer : PostAnswer) (hd : d < t.capacity) (hu : (t.domains d).inUse = true)
      (hr : (t.domains d).flushRequest = none)
      (hrange : t.Unfailed d (t.domains d).visibleGetSequence (t.domains d).flushTargetGetSequence range)
      (hwait : ¬ answer.Immediate) :
      Move once safe t (t.held d answer.request) [.post d (t.coveredSlots d) answer]
  | postDone (d range : Nat) (answer : PostAnswer) (hd : d < t.capacity) (hu : (t.domains d).inUse = true)
      (hr : (t.domains d).flushRequest = none)
      (hrange : t.Unfailed d (t.domains d).visibleGetSequence (t.domains d).flushTargetGetSequence range)
      (hnow : answer.Immediate) :
      Move once safe t ((t.held d answer.request).finished d answer.result) [.post d (t.coveredSlots d) answer]
  | publish (slot request : Nat) (c : Result) (hslot : slot < t.capacity) (hres : (t.requests slot).state = .reserved) :
      Move once safe t (t.setRequest slot { t.requests slot with
        request := some request, completionResult := c, state := .posted }) []
  | publishPending (slot : Nat) (hslot : slot < t.capacity) (hres : (t.requests slot).state = .reserved)
      (hf : (t.requests slot).requiresGetFlush = true) :
      Move once safe t (t.setRequest slot { t.requests slot with
        request := none, completionResult := .success, completionStage := .flushPending, getDataComplete := true,
        state := .posted }) [.data slot]
  | reinit (d : Nat) (peer : Int) (orderingKey : UInt64) (hd : d < t.capacity) (hnone : ∀ i s, t.place i ≠ some (d, s)) :
      Move once safe t (t.setDomain d { Domain.unused with orderingKey := orderingKey, peer := peer, inUse := true }) []
  | issue (slot d dstOff size : Nat) (dstMrIdx : Int) (comm : Option Nat) (hslot : slot < t.capacity)
      (hres : (t.requests slot).state = .reserved) (hd : d < t.capacity) (hu : (t.domains d).inUse = true)
      (honce : once → t.place slot = none) :
      Move once safe t ((t.setDomain d { t.domains d with
          issuedGetSequence := (t.domains d).issuedGetSequence + 1 }).setRequest slot { t.requests slot with
        getSequence := (t.domains d).issuedGetSequence + 1, getVisibilityDomain := some d, dstMrIdx := dstMrIdx,
        dstOff := dstOff, size := size, flushRecvComm := comm, requiresGetFlush := true }) []
  | remove (slot d q : Nat) (hslot : t.place slot = some (d, q)) (hsafe : safe → t.SafeRemoval slot d q) :
      Move once safe t (t.removed slot d q) []
  | drop (slot : Nat) (hslot : t.place slot = none) : Move once safe t (t.setRequest slot requestReset) []
  | complete (slot d s : Nat) (hslot : t.place slot = some (d, s)) (hs : s ≤ (t.domains d).visibleGetSequence) :
      Move once safe t (t.setRequest slot requestReset) []

inductive Moves (once safe : Prop) (t : Transport) : Transport → List Note → Prop
  | refl : Moves once safe t t []
  | step {t' t'' : Transport} {ns ns' : List Note} (h : Moves once safe t t' ns) (hm : Move once safe t' t'' ns') :
      Moves once safe t t'' (ns ++ ns')

section Moves
variable {once safe : Prop} {t t' t'' : Transport} {ns ns' : List Note}

theorem Moves.single (h : Move once safe t t' ns) : Moves once safe t t' ns := by simpa using Moves.refl.step h

theorem Moves.trans (h : Moves once safe t t' ns) (h' : Moves once safe t' t'' ns') : Moves once safe t t'' (ns ++ ns') := by
  induction h' with
  | refl => simpa using h
  | step _ hm ih =>
    rw [← append_assoc]
    exact ih.step hm

end Moves

section

variable (t : Transport) (d : Nat) (result : Result)
include t d result

theorem finished_domains : (t.finished d result).domains = (t.setDomain d { t.domains d with
      flushRequest := none, flushResult := result
      visibleGetSequence := (t.domains d).flushTargetGetSequence }).domains := by
  unfold finished
  split_ifs <;> rfl

theorem finished_self : (t.finished d result).domains d = { t.domains d with
      flushRequest := none, flushResult := result
      visibleGetSequence := (t.domains d).flushTargetGetSequence } := by
  rw [finished_domains, setDomain_self]

theorem advances_finished (i : Nat) : Advances (t.requests i) ((t.finished d result).requests i) := by
  unfold finished
  split_ifs
  · exact advances_failCovered (t.setDomain d _) d _ result i
  · exact Advances.refl _

theorem finished_capacity : (t.finished d result).capacity = t.capacity := by
  unfold finished
  split_ifs <;> rfl

theorem finished_place : (t.finished d result).place = t.place :=
  Advances.place (finished_capacity t d result) (advances_finished t d result)

end

/-! ## A move keeps the invariant -/

section Sound
variable {once safe : Prop} {t t' : Transport} {d : Nat} {ns : List Note}

theorem nextTarget_bounds {domain : Domain} (h : domain.Ordered) :
    domain.flushTargetGetSequence ≤ nextTarget domain ∧ nextTarget domain ≤ domain.dataCompletedGetSequence := by
  obtain ⟨hv, hf, -⟩ := h
  unfold nextTarget
  split_ifs
  · exact ⟨le_rfl, hf⟩
  · exact ⟨hf, le_rfl⟩

section

variable (h : Sound t) (hd : d < t.capacity) (hu : (t.domains d).inUse = true)
include h hd hu

theorem Sound.marksOnly {domain : Domain} (hin : domain.inUse = true)
    (hissued : domain.issuedGetSequence = (t.domains d).issuedGetSequence)
    (hdata : domain.dataCompletedGetSequence = (t.domains d).dataCompletedGetSequence)
    (hvis : (t.domains d).visibleGetSequence ≤ domain.visibleGetSequence)
    (ht : domain.visibleGetSequence ≤ domain.flushTargetGetSequence)
    (htd : domain.flushTargetGetSequence ≤ domain.dataCompletedGetSequence) : Sound (t.setDomain d domain) := by
  refine h.moveMarks hd hu hin hissued hvis ⟨ht, htd, ?_⟩ ?_
  · rw [hdata, hissued]
    exact (h.marks d hd hu).2.2
  · intro s hs hs'
    rw [hdata] at hs'
    exact absurd (hs.trans_le hs') (lt_irrefl _)

theorem Sound.finished (result : Result) : Sound (t.finished d result) := by
  obtain ⟨hv, hf, -⟩ := h.marks d hd hu
  have hset : Sound (t.setDomain d { t.domains d with
      flushRequest := none, flushResult := result, visibleGetSequence := (t.domains d).flushTargetGetSequence }) :=
    h.marksOnly hd hu hu rfl rfl hv le_rfl hf
  exact hset.advance (finished_capacity t d result) (finished_domains t d result) (advances_finished t d result)

theorem Sound.held (request : Option Nat) : Sound (t.held d request) := by
  obtain ⟨hv, hf, -⟩ := h.marks d hd hu
  exact h.marksOnly hd hu hu rfl rfl le_rfl hv hf

end

theorem Sound.setRequest (h : Sound t) {slot : Nat} {r : Request} (ha : Advances (t.requests slot) r) :
    Sound (t.setRequest slot r) := h.advance rfl rfl (advances_setRequest ha)

theorem Sound.reserve (h : Sound t) {slot : Nat} (submit : SubmitContext) (peer stagingSlot : Int)
    (hslot : slot < t.capacity) (hfree : (t.requests slot).state = .free) :
    Sound (t.setRequest slot { t.requests slot with
      submit := submit, peer := peer, stagingSlot := stagingSlot, state := .reserved }) := by
  have hreset := (h.staged slot hslot).free hfree
  refine h.outside ?_ ?_ ?_
  · rw [hreset]
    exact ⟨by simp, fun _ => rfl, by simp [requestReset], by simp [requestReset], by simp [requestReset], by simp⟩
  · simp [place, hfree]
  · rw [setRequest_place]
    simp [hreset, requestReset]

/-- **A move keeps the invariant.** -/
theorem Sound.move (h : Sound t) (hm : Move once safe t t' ns) : Sound t' := by
  cases hm with
  | keep hr hd hc =>
    refine h.advance hc hd fun i => ?_
    rw [hr]
    exact Advances.refl _
  | dataDone slot c hp hf =>
    refine h.setRequest ⟨rfl, rfl, Iff.rfl, id, fun hs => ⟨fun hfree => ?_, hs.place, hs.flush, hs.pending, hs.complete,
      hs.request⟩⟩
    exact absurd (hp.symm.trans hfree) (by simp)
  | dataComplete slot c hslot hp hst hf =>
    refine h.setRequest ⟨rfl, rfl, Iff.rfl, fun _ => rfl, fun hs => ⟨fun hfree => ?_, hs.place, hs.flush, by simp,
      fun _ => ⟨hp, hf⟩, by simp⟩⟩
    exact absurd (hp.symm.trans hfree) (by simp)
  | flushWait d answer => exact h
  | flushDone d answer hd hu hr ha => exact h.finished hd hu _
  | advance d c hd hu hlow hhigh hdata =>
    obtain ⟨hv, hf, -⟩ := h.marks d hd hu
    exact h.moveMarks hd hu hu rfl le_rfl ⟨hv, hf.trans hlow, hhigh⟩ hdata
  | skip d hd hu hr ht hnone =>
    obtain ⟨hv, hf, -⟩ := h.marks d hd hu
    exact h.marksOnly hd hu hu rfl rfl (hv.trans hf) le_rfl le_rfl
  | aim d range hd hu hr hrange =>
    have hmarks := h.marks d hd hu
    obtain ⟨hlow, hhigh⟩ := nextTarget_bounds hmarks
    exact h.marksOnly hd hu hu rfl rfl le_rfl (hmarks.1.trans hlow) hhigh
  | post d range answer hd hu hr hrange hwait => exact h.held hd hu _
  | postDone d range answer hd hu hr hrange hnow =>
    refine (h.held hd hu _).finished hd ?_ _
    rw [Transport.held, setDomain_self]
    exact hu
  | publish slot request c hslot hres =>
    refine h.setRequest ⟨rfl, rfl, by simp [hres], id, fun hs => ⟨by simp, hs.place, hs.flush, hs.pending,
      fun hc => ⟨rfl, (hs.complete hc).2⟩, by simp⟩⟩
  | publishPending slot hslot hres hf =>
    exact h.setRequest ⟨rfl, rfl, by simp [hres], fun _ => rfl, fun hs => ⟨by simp, hs.place, hs.flush, by simp,
      fun _ => ⟨rfl, hf⟩, by simp⟩⟩
  | reinit d peer orderingKey hd hnone =>
    refine h.setDomain (fun i s hi => absurd hi (hnone i s)) ⟨le_rfl, le_rfl, le_rfl⟩
      (fun i s hi => absurd hi (hnone i s)) ?_
    intro s hv hs
    exact absurd (hv.trans_le hs) (lt_irrefl _)
  | issue slot d dstOff size dstMrIdx comm hslot hres hd hu honce =>
    obtain ⟨hv, hf, hle⟩ := h.marks d hd hu
    have hstage := h.staged slot hslot
    have hwide : Sound (t.setDomain d { t.domains d with
        issuedGetSequence := (t.domains d).issuedGetSequence + 1 }) := by
      refine h.setDomain (fun i s hi => ⟨hu, ?_⟩) ⟨hv, hf, hle.trans (Nat.le_succ _)⟩ (fun i s hi => h.early i d s hi)
        (h.filled d hd hu)
      exact (h.home i d s hi).2.2.2.trans (Nat.le_succ _)
    have hopen : (t.requests slot).getDataComplete = false := by
      by_contra hc
      exact absurd (hres.symm.trans (hstage.complete (by simpa using hc)).1) (by simp)
    refine hwide.enter (s := (t.domains d).issuedGetSequence + 1) hslot hd ?_ hopen ?_ ?_ ?_ ?_ ?_
    · rw [setDomain_self]
      exact hu
    · refine ⟨fun hf => absurd (hres.symm.trans hf) (by simp), by simp, by simp, hstage.pending, ?_, ?_⟩
      · intro hc
        exact absurd (hopen.symm.trans hc) (by simp)
      · intro hp
        exact absurd (hres.symm.trans hp) (by simp)
    · rw [setRequest_place]
      simp [hslot, hres]
    · rw [setDomain_self]
      exact Nat.lt_succ_of_le hle
    · rw [setDomain_self]
    · intro i hi
      have hold : (t.domains d).issuedGetSequence + 1 ≤ (t.domains d).issuedGetSequence := (h.home i d _ hi).2.2.2
      omega
  | remove slot d q hslot hsafe => exact h.remove hslot
  | drop slot hslot =>
    refine h.release fun d s hs => ?_
    rw [hslot] at hs
    exact absurd hs (by simp)
  | complete slot d s hslot hs =>
    refine h.release fun d' s' hs' => ?_
    rw [hslot] at hs'
    cases hs'
    exact hs

theorem Sound.moves (h : Sound t) (hm : Moves once safe t t' ns) : Sound t' := by
  induction hm with
  | refl => exact h
  | step _ hm ih => exact ih.move hm

end Sound

/-! ## The parts of a progress call -/

section Progress
variable (once safe : Prop) {t : Transport} {d range : Nat}

theorem finishFlush_eq (hm : (t.domains d).Ordered) (hu : (t.domains d).inUse = true) (result : Result)
    (hr : (t.domains d).flushTargetGetSequence = (t.domains d).visibleGetSequence → (t.domains d).flushRequest ≠ none) :
    t.finishFlush d result = (.success, t.finished d result) := by
  obtain ⟨hv, hf, -⟩ := hm
  have hok : ¬ ((t.domains d).inUse = false ∨ (t.domains d).flushTargetGetSequence < (t.domains d).visibleGetSequence ∨
      (t.domains d).dataCompletedGetSequence < (t.domains d).flushTargetGetSequence ∨
      ((t.domains d).flushTargetGetSequence = (t.domains d).visibleGetSequence ∧ (t.domains d).flushRequest = none)) := by
    rintro (h | h | h | h)
    · rw [hu] at h
      exact absurd h (by simp)
    · omega
    · omega
    · exact hr h.1 h.2
  unfold finishFlush Domain.completeFlush
  rw [if_neg hok]
  rfl

theorem testFlush_moves (h : Sound t) (hd : d < t.capacity) (hu : (t.domains d).inUse = true) (answer : TestAnswer) :
    (t.testFlush d answer).1 = .success ∧
      Moves once safe t (t.testFlush d answer).2.1 ((t.testFlush d answer).2.2.flatMap Callback.notes) ∧
      ((t.testFlush d answer).2.1.domains d).inUse = true ∧ (t.testFlush d answer).2.1.place = t.place := by
  unfold testFlush
  by_cases hr : (t.domains d).flushRequest = none
  · rw [if_pos hr]
    exact ⟨rfl, .refl, hu, rfl⟩
  rw [if_neg hr]
  by_cases ha : answer.result ≠ .success ∨ answer.done = true
  · rw [if_pos ha, finishFlush_eq (h.marks d hd hu) hu _ fun _ => hr]
    refine ⟨rfl, .single (.flushDone d answer hd hu hr ha), ?_, finished_place t d _⟩
    rw [finished_self]
    exact hu
  · rw [if_neg ha]
    exact ⟨rfl, .single (.flushWait d answer ha), hu, rfl⟩

variable {P : Request → Bool} {i : Nat}

theorem firstSlot_some (h : t.firstSlot P = some i) : i < t.capacity ∧ P (t.requests i) = true := by
  exact ⟨mem_range.1 (mem_of_find?_eq_some h), find?_some (p := fun i => P (t.requests i)) h⟩

theorem lastSlot_some (h : t.lastSlot P = some i) : i < t.capacity ∧ P (t.requests i) = true := by
  exact ⟨mem_range.1 (mem_reverse.1 (mem_of_find?_eq_some h)),
    find?_some (p := fun i => P (t.requests i)) h⟩

theorem lastSlot_none (h : t.lastSlot P = none) (hi : i < t.capacity) : P (t.requests i) = false := by
  have hn := find?_eq_none.1 h i (mem_reverse.2 (mem_range.2 hi))
  simpa using hn

theorem postedIn_place (hi : i < t.capacity) (h : postedIn d (t.requests i) = true) :
    t.place i = some (d, (t.requests i).getSequence) := by
  simp only [postedIn, Bool.and_eq_true, beq_iff_eq] at h
  exact place_eq_some.2 ⟨hi, by simp [h.1], h.2, rfl⟩

theorem completedPrefix_spec (t : Transport) (d n c : Nat) :
    c ≤ t.completedPrefix d n c ∧ t.completedPrefix d n c ≤ c + n ∧ ∀ s, c < s → s ≤ t.completedPrefix d n c →
        ∃ i, t.place i = some (d, s) ∧ (t.requests i).getDataComplete = true := by
  induction n generalizing c with
  | zero => refine ⟨le_rfl, le_rfl, fun s hs hs' => absurd (hs.trans_le hs') (lt_irrefl _)⟩
  | succ n ih =>
    unfold completedPrefix
    cases hf : t.firstSlot fun r => postedIn d r && r.getSequence == c + 1 with
    | none => exact ⟨le_rfl, Nat.le_add_right _ _, fun s hs hs' => absurd (hs.trans_le hs') (lt_irrefl _)⟩
    | some i =>
      dsimp only
      by_cases hc : (t.requests i).getDataComplete = true
      · rw [if_pos hc]
        obtain ⟨hlow, hhigh, hmem⟩ := ih (c + 1)
        refine ⟨by omega, by omega, fun s hs hs' => ?_⟩
        by_cases he : s = c + 1
        · subst he
          obtain ⟨hi, hp⟩ := firstSlot_some hf
          simp only [Bool.and_eq_true, beq_iff_eq] at hp
          have hpl := postedIn_place hi hp.1
          rw [hp.2] at hpl
          exact ⟨i, hpl, hc⟩
        · exact hmem s (by omega) hs'
      · rw [if_neg hc]
        exact ⟨le_rfl, Nat.le_add_right _ _, fun s hs hs' => absurd (hs.trans_le hs') (lt_irrefl _)⟩

theorem advancePrefix_moves (h : Sound t) (hd : d < t.capacity) (hu : (t.domains d).inUse = true) :
    (t.advancePrefix d).1 = .success ∧ Moves once safe t (t.advancePrefix d).2 [] ∧
      ((t.advancePrefix d).2.domains d).inUse = true ∧ (t.advancePrefix d).2.place = t.place := by
  obtain ⟨-, -, hle⟩ := h.marks d hd hu
  obtain ⟨hlow, hhigh, hmem⟩ := completedPrefix_spec t d
    ((t.domains d).issuedGetSequence - (t.domains d).dataCompletedGetSequence) (t.domains d).dataCompletedGetSequence
  have hi : t.completedPrefix d ((t.domains d).issuedGetSequence - (t.domains d).dataCompletedGetSequence)
      (t.domains d).dataCompletedGetSequence ≤ (t.domains d).issuedGetSequence := by omega
  unfold advancePrefix Domain.advanceData
  dsimp only
  rw [if_neg (by rw [hu]; rintro (hf | hf | hf) <;> first | omega | simp at hf)]
  refine ⟨rfl, .single (.advance d _ hd hu hlow hi hmem), ?_, rfl⟩
  rw [setDomain_self]
  exact hu

theorem Sound.posted (h : Sound t) {s : Nat} (hp : t.place i = some (d, s))
    (hs : s ≤ (t.domains d).dataCompletedGetSequence) : postedIn d (t.requests i) = true := by
  obtain ⟨hi, -, hd, -⟩ := place_eq_some.1 hp
  have hc := ((h.staged i hi).complete (h.early i d s hp hs)).1
  simp [postedIn, hc, hd]

theorem flushRange_some (hr : t.flushRange d = some range) :
    t.Unfailed d (t.domains d).visibleGetSequence (nextTarget (t.domains d)) range := by
  unfold flushRange at hr
  obtain ⟨hi, hp⟩ := lastSlot_some hr
  simp only [Bool.and_eq_true, decide_eq_true_eq, beq_iff_eq] at hp
  obtain ⟨⟨⟨hposted, hv⟩, hw⟩, hs⟩ := hp
  exact ⟨_, postedIn_place hi hposted, hv, hw, hs⟩

section

variable (h : Sound t) (hd : d < t.capacity) (hu : (t.domains d).inUse = true)
include h hd hu

theorem flushRange_none (hr : t.flushRange d = none) (i : Nat) :
    ¬ t.Unfailed d (t.domains d).visibleGetSequence (nextTarget (t.domains d)) i := by
  rintro ⟨s, hp, hv, hw, hs⟩
  obtain ⟨hi, -, -, rfl⟩ := place_eq_some.1 hp
  unfold flushRange at hr
  have hn := lastSlot_none hr hi
  have hposted := h.posted hp (hw.trans (nextTarget_bounds (h.marks d hd hu)).2)
  simp [hposted, hv, hw, hs] at hn

theorem postFlush_moves (hr : (t.domains d).flushRequest = none)
    (hrange : t.Unfailed d (t.domains d).visibleGetSequence (t.domains d).flushTargetGetSequence range)
    (answer : PostAnswer) : (t.postFlush d range answer).1 = .success ∧
      Moves once safe t (t.postFlush d range answer).2.1 ((t.postFlush d range answer).2.2.flatMap Callback.notes) ∧
      (t.postFlush d range answer).2.1.place = t.place := by
  obtain ⟨s, -, hv, hw, -⟩ := id hrange
  unfold postFlush
  by_cases ha : answer.result ≠ .inProgress ∧ (answer.result ≠ .success ∨ answer.request = none)
  · have hself : (t.held d answer.request).domains d = { t.domains d with flushRequest := answer.request } :=
      setDomain_self ..
    have hm := h.marks d hd hu
    have hfin := finishFlush_eq (t := t.held d answer.request) (d := d) (by rw [hself]; exact hm) (by rw [hself]; exact hu)
      answer.result (by rw [hself]; intro he; dsimp only at he; omega)
    rw [if_pos ha]
    change (finishFlush (t.held d answer.request) d answer.result).1 = _ ∧
      Moves once safe t (finishFlush (t.held d answer.request) d answer.result).2 _ ∧
      (finishFlush (t.held d answer.request) d answer.result).2.place = _
    rw [hfin]
    exact ⟨rfl, .single (.postDone d range answer hd hu hr hrange ha), finished_place _ d _⟩
  · rw [if_neg ha]
    exact ⟨rfl, .single (.post d range answer hd hu hr hrange ha), rfl⟩

end

/-- A range waits for its flush to be retried and has no request left that did not fail. -/
def Transport.Wedged (t : Transport) (d : Nat) : Prop :=
  (t.domains d).flushRequest = none ∧ (t.domains d).visibleGetSequence < (t.domains d).flushTargetGetSequence ∧
    ∀ i, ¬ t.Unfailed d (t.domains d).visibleGetSequence (t.domains d).flushTargetGetSequence i

theorem startFlush_some (hm : (t.domains d).Ordered) (hu : (t.domains d).inUse = true)
    (hr : (t.domains d).flushRequest = none)
    (hlt : (t.domains d).visibleGetSequence < (t.domains d).dataCompletedGetSequence)
    (hrange : t.flushRange d = some range) (answer : PostAnswer) :
    t.startFlush d answer = (t.aimed d).postFlush d range answer := by
  obtain ⟨hv, -, -⟩ := hm
  unfold startFlush aimed nextTarget
  rw [if_pos ⟨hr, hlt⟩, hrange]
  dsimp only
  by_cases hretry : (t.domains d).visibleGetSequence < (t.domains d).flushTargetGetSequence
  · simp [hretry, setDomain]
  · rw [if_neg hretry, if_neg hretry]
    unfold Domain.beginFlush
    rw [if_neg (by rw [hu, hr]; simp; omega)]

theorem startFlush_moves (h : Sound t) (hd : d < t.capacity) (hu : (t.domains d).inUse = true) (answer : PostAnswer) :
    Moves once safe t (t.startFlush d answer).2.1 ((t.startFlush d answer).2.2.flatMap Callback.notes) ∧
      (t.startFlush d answer).2.1.place = t.place ∧
      ((t.startFlush d answer).1 = .success ∨ (t.Wedged d ∧ t.startFlush d answer = (.invalidArgument, t, []))) := by
  have hm := h.marks d hd hu
  obtain ⟨hv, hf, -⟩ := id hm
  by_cases hstart : (t.domains d).flushRequest = none ∧
      (t.domains d).visibleGetSequence < (t.domains d).dataCompletedGetSequence
  swap
  · unfold startFlush
    rw [if_neg hstart]
    exact ⟨.refl, rfl, .inl rfl⟩
  obtain ⟨hr, hlt⟩ := hstart
  cases hrange : t.flushRange d with
  | none =>
    have hnone := flushRange_none h hd hu hrange
    unfold startFlush
    rw [if_pos ⟨hr, hlt⟩, hrange]
    by_cases htarget : (t.domains d).flushTargetGetSequence = (t.domains d).visibleGetSequence
    · have hnext : nextTarget (t.domains d) = (t.domains d).dataCompletedGetSequence := by
        unfold nextTarget
        rw [if_neg (by omega)]
      rw [hnext] at hnone
      unfold Domain.advanceVisible
      rw [if_neg (by rw [hu, hr]; simp [htarget, hlt.le])]
      exact ⟨.single (.skip d hd hu hr htarget hnone), rfl, .inl rfl⟩
    · have hnext : nextTarget (t.domains d) = (t.domains d).flushTargetGetSequence := by
        unfold nextTarget
        rw [if_pos (by omega)]
      rw [hnext] at hnone
      unfold Domain.advanceVisible
      rw [if_pos (by simp [htarget])]
      exact ⟨.refl, rfl, .inr ⟨⟨hr, by omega, hnone⟩, rfl⟩⟩
  | some range =>
    have hun := flushRange_some hrange
    have haim : Moves once safe t (t.aimed d) [] := .single (.aim d range hd hu hr hun)
    have hself : (t.aimed d).domains d = { t.domains d with flushTargetGetSequence := nextTarget (t.domains d) } :=
      setDomain_self ..
    have hpost := postFlush_moves once safe (t := t.aimed d) (d := d) (h.moves haim) hd (by rw [hself]; exact hu)
      (by rw [hself]; exact hr) (by rw [hself]; exact hun) answer
    rw [startFlush_some hm hu hr hlt hrange]
    exact ⟨by simpa using haim.trans hpost.2.1, hpost.2.2, .inl hpost.1⟩

/-- The end of a progress call on a request of domain `d`: it succeeds and reports whether the request is visible, or
it stops at a wedged domain. -/
def Transport.Progress.Ends (p : Progress) (slot d s : Nat) : Prop :=
  p.transport.place slot = some (d, s) ∧
    ((p.result = .success ∧ (p.ready = true ↔ s ≤ (p.transport.domains d).visibleGetSequence) ∧
        p.completionResult = (p.transport.requests slot).completionResult) ∨
      (p.result = .invalidArgument ∧ p.ready = false ∧ p.transport.Wedged d))

theorem progressDomain_moves (h : Sound t) {slot s : Nat} (hp : t.place slot = some (d, s)) (flush : TestAnswer)
    (post : PostAnswer) (calls : List Callback) :
    ∃ cs, (t.progressDomain slot flush post calls).calls = calls ++ cs ∧
      Moves once safe t (t.progressDomain slot flush post calls).transport (cs.flatMap Callback.notes) ∧
      (t.progressDomain slot flush post calls).Ends slot d s := by
  obtain ⟨hd, hu, -, -⟩ := h.home slot d s hp
  have hdom := (place_eq_some.1 hp).2.2.1
  obtain ⟨hok1, hm1, hu1, hp1⟩ := testFlush_moves once safe h hd hu flush
  have h1 := h.moves hm1
  have hd1 : d < (t.testFlush d flush).2.1.capacity := (h1.home slot d s (by rw [hp1]; exact hp)).1
  obtain ⟨hok2, hm2, hu2, hp2⟩ := advancePrefix_moves once safe h1 hd1 hu1
  have h2 := h1.moves hm2
  have hpl2 : ((t.testFlush d flush).2.1.advancePrefix d).2.place slot = some (d, s) := by
    rw [hp2, hp1]
    exact hp
  have hd2 := (h2.home slot d s hpl2).1
  obtain ⟨hm3, hp3, hend⟩ := startFlush_moves once safe h2 hd2 hu2 post
  have hpl3 : (((t.testFlush d flush).2.1.advancePrefix d).2.startFlush d post).2.1.place slot = some (d, s) := by
    rw [hp3]
    exact hpl2
  have hmoves := (hm1.trans hm2).trans hm3
  rw [append_nil, ← flatMap_append] at hmoves
  unfold progressDomain
  dsimp only
  rw [hdom]
  dsimp only
  rw [if_neg (not_le.2 hd), if_neg (not_not.2 hok1), if_neg (not_not.2 hok2)]
  rcases hend with hok3 | ⟨hw, hfail⟩
  · rw [if_neg (not_not.2 hok3)]
    refine ⟨_, append_assoc .., hmoves, hpl3, .inl ⟨rfl, ?_, rfl⟩⟩
    rw [decide_eq_true_eq, (place_eq_some.1 hpl3).2.2.2]
  · rw [if_pos (by rw [hfail]; simp)]
    refine ⟨_, append_assoc .., hmoves, hpl3, .inr ⟨by rw [hfail], rfl, ?_⟩⟩
    rw [hfail]
    exact hw

/-- **How a progress call on a posted request ends.** -/
theorem progressRequest_moves (h : Sound t) {slot : Nat} (hslot : slot < t.capacity)
    (hposted : (t.requests slot).state = .posted) (data flush : TestAnswer) (post : PostAnswer) :
    Moves once safe t (t.progressRequest slot data flush post).transport
        ((t.progressRequest slot data flush post).calls.flatMap Callback.notes) ∧
      (((t.progressRequest slot data flush post).result = .success ∧ (t.requests slot).requiresGetFlush = false ∧
          (t.progressRequest slot data flush post).transport.place slot = none) ∨
        ((t.progressRequest slot data flush post).result = .success ∧
          (t.progressRequest slot data flush post).ready = false) ∨
        ∃ d s, (t.progressRequest slot data flush post).Ends slot d s) := by
  have hstage := h.staged slot hslot
  have hplace : ∀ {d}, (t.requests slot).getVisibilityDomain = some d →
      t.place slot = some (d, (t.requests slot).getSequence) := by
    intro d hd
    exact place_eq_some.2 ⟨hslot, by simp [hposted], hd, rfl⟩
  unfold progressRequest
  rw [if_neg (not_not.2 hposted)]
  by_cases hpend : (t.requests slot).completionStage = .flushPending
  · rw [if_pos hpend]
    have hflush := (hstage.complete (hstage.pending.1 hpend)).2
    obtain ⟨d, hd⟩ := Option.ne_none_iff_exists'.1 (hstage.flush.1 hflush)
    obtain ⟨cs, hcs, hm, hend⟩ := progressDomain_moves once safe h (hplace hd) flush post []
    rw [hcs]
    exact ⟨hm, .inr (.inr ⟨d, _, hend⟩)⟩
  have hdata : (t.requests slot).completionStage = .dataPosted := by
    cases hst : (t.requests slot).completionStage with
    | dataPosted => rfl
    | flushPending => exact absurd hst hpend
  rw [if_neg hpend, if_neg (hstage.request hposted hdata)]
  by_cases hwait : data.result = .success ∧ data.done = false
  · rw [if_pos hwait]
    have hsame : t.setRequest slot { t.requests slot with
        completionResult := if data.result ≠ .success then data.result else (t.requests slot).completionResult } = t := by
      simp [hwait.1, setRequest]
    rw [hsame]
    refine ⟨?_, .inr (.inl ⟨rfl, rfl⟩)⟩
    have hnotes : [Callback.testData slot data].flatMap Callback.notes = [] := by
      simp [Callback.notes, TestAnswer.Final, hwait]
    rw [hnotes]
    exact .refl
  rw [if_neg hwait]
  have hfinal : data.Final := by
    by_cases hr : data.result = .success
    · exact .inr (by simpa [hr] using hwait)
    · exact .inl hr
  have hnotes : [Callback.testData slot data].flatMap Callback.notes = [.data slot] := by simp [Callback.notes, hfinal]
  by_cases hflush : (t.requests slot).requiresGetFlush = false
  · rw [if_pos hflush]
    refine ⟨by rw [hnotes]; exact .single (.dataDone slot _ hposted hflush), .inl ⟨rfl, hflush, ?_⟩⟩
    have hnone : (t.requests slot).getVisibilityDomain = none := by
      by_contra hne
      exact absurd (hflush.symm.trans (hstage.flush.2 hne)) (by simp)
    rw [setRequest_place]
    simp [hnone]
  rw [if_neg hflush]
  rw [Bool.not_eq_false] at hflush
  obtain ⟨d, hd⟩ := Option.ne_none_iff_exists'.1 (hstage.flush.1 hflush)
  have hset : ∀ c, (t.setRequest slot { t.requests slot with completionResult := c }).setRequest slot
      { { t.requests slot with completionResult := c } with
        request := none, getDataComplete := true, completionStage := .flushPending } =
      t.setRequest slot { t.requests slot with
        completionResult := c, request := none, getDataComplete := true, completionStage := .flushPending } := by
    intro c
    simp [setRequest]
  rw [hset]
  generalize (if data.result ≠ .success then data.result else (t.requests slot).completionResult) = c
  have hm : Moves once safe t _ _ := .single (.dataComplete slot c hslot hposted hdata hflush)
  by_cases hc : c = .success
  · rw [if_pos hc, hnotes]
    exact ⟨hm, .inr (.inl ⟨rfl, rfl⟩)⟩
  · rw [if_neg hc]
    have hpl : (t.setRequest slot { t.requests slot with
        completionResult := c, request := none, getDataComplete := true, completionStage := .flushPending }).place slot =
        some (d, (t.requests slot).getSequence) := by
      rw [setRequest_place]
      simp [hslot, hposted, hd]
    obtain ⟨cs, hcs, hm', hend⟩ := progressDomain_moves once safe (h.moves hm) hpl flush post [.testData slot data]
    rw [hcs, flatMap_append, hnotes]
    exact ⟨hm.trans hm', .inr (.inr ⟨d, _, hend⟩)⟩

end Progress

/-! ## The other calls -/

section Calls
variable (once safe : Prop) {t : Transport} {slot : Nat}

theorem trackNext_moves (t : Transport) (flags : UInt32) : Moves once safe t (t.trackNext flags).2 [] := by
  unfold trackNext
  dsimp only
  split_ifs
  · exact .single (.keep rfl rfl rfl)
  · exact .single (.keep rfl rfl rfl)

theorem reserveRequest_cases (t : Transport) (submit : SubmitContext) (peer stagingSlot : Int) :
    (t.reserveRequest submit peer stagingSlot).2 = (t, none) ∨ ∃ i, i < t.capacity ∧ (t.requests i).state = .free ∧
        (t.reserveRequest submit peer stagingSlot).2 = (t.setRequest i { t.requests i with
          submit := submit, peer := peer, stagingSlot := stagingSlot, state := .reserved }, some i) := by
  unfold reserveRequest
  split_ifs
  · exact .inl rfl
  cases hf : t.firstSlot fun r => r.state = .free with
  | none => exact .inl rfl
  | some i =>
    obtain ⟨hi, hfree⟩ := firstSlot_some hf
    rw [decide_eq_true_eq] at hfree
    exact .inr ⟨i, hi, hfree, rfl⟩

theorem publishRequest_moves (hslot : slot < t.capacity) (request : Nat) (c : Result) :
    Moves once safe t (t.publishRequest slot request c).2 [] := by
  unfold publishRequest
  dsimp only
  split_ifs with hres
  · exact .refl
  · rw [not_not] at hres
    exact (Moves.single (.publish slot request c hslot hres)).step (.keep rfl rfl rfl)

theorem publishGetFlushPending_moves (hslot : slot < t.capacity) : Moves once safe t (t.publishGetFlushPending slot).2
      (if (t.publishGetFlushPending slot).1 = .success then [.data slot] else []) := by
  unfold publishGetFlushPending
  by_cases hres : (t.requests slot).state ≠ .reserved ∨ (t.requests slot).requiresGetFlush = false
  · rw [if_pos hres]
    exact .refl
  · rw [if_neg hres]
    push Not at hres
    exact (Moves.single (.publishPending slot hslot hres.1 (by simpa using hres.2))).step (.keep rfl rfl rfl)

/-- The domain is not in use, or all its GETs are visible and no flush is outstanding; no request refers to it. -/
structure Idle (t : Transport) (d : Nat) : Prop where
  empty : ∀ i s, t.place i ≠ some (d, s)
  quiet : (t.domains d).inUse = false ∨
    ((t.domains d).issuedGetSequence = (t.domains d).visibleGetSequence ∧ (t.domains d).flushRequest = none)

theorem pickDomain_some (h : Sound t) {peer : Int} {d : Nat} (hp : t.pickDomain peer = some d) :
    d < t.capacity ∧ (t.servesPeer peer (t.domains d) = true ∨ Idle t d) := by
  unfold pickDomain at hp
  cases h1 : (List.range t.capacity).find? fun d => t.servesPeer peer (t.domains d) with
  | some d1 =>
    rw [h1] at hp
    cases hp
    exact ⟨mem_range.1 (mem_of_find?_eq_some h1), .inl (find?_some (p := fun d => t.servesPeer peer (t.domains d)) h1)⟩
  | none =>
    rw [h1] at hp
    cases h2 : (List.range t.capacity).find? fun d => !(t.domains d).inUse with
    | some d2 =>
      rw [h2] at hp
      cases hp
      have hu := find?_some (p := fun d => !(t.domains d).inUse) h2
      refine ⟨mem_range.1 (mem_of_find?_eq_some h2), .inr ⟨fun i s hi => ?_, .inl (by simpa using hu)⟩⟩
      simp [(h.home i d s hi).2.1] at hu
    | none =>
      rw [h2] at hp
      have hf := find?_some (p := fun d => (t.domains d).issuedGetSequence == (t.domains d).visibleGetSequence &&
        (t.domains d).flushRequest.isNone && !t.referenced d) hp
      rw [Bool.and_eq_true, Bool.and_eq_true, beq_iff_eq, Option.isNone_iff_eq_none] at hf
      refine ⟨mem_range.1 (mem_of_find?_eq_some hp), .inr ⟨fun i s hi => ?_, .inr hf.1⟩⟩
      obtain ⟨hc, hs, hd, -⟩ := place_eq_some.1 hi
      have href : t.referenced d = true := by
        unfold referenced
        rw [any_eq_true]
        exact ⟨i, mem_range.2 hc, by simp [hs, hd]⟩
      simp [href] at hf

theorem setDomain_eq_self (t : Transport) (d : Nat) : t.setDomain d (t.domains d) = t := by simp [setDomain]

section

variable (h : Sound t) (hslot : slot < t.capacity)
include h hslot

theorem requireGetFlush_moves (dstMrIdx : Int) (dstOff size flushRecvComm : Nat)
    (honce : once → (t.requests slot).state = .reserved → t.place slot = none) :
    Moves once safe t (t.requireGetFlush slot dstMrIdx dstOff size flushRecvComm).2 [] := by
  unfold requireGetFlush
  dsimp only
  split_ifs with harg hres
  · exact .refl
  · exact .refl
  rw [not_not] at hres
  cases hpick : t.pickDomain (t.requests slot).peer with
  | none => exact .refl
  | some d =>
    obtain ⟨hd, hserve⟩ := pickDomain_some h hpick
    dsimp only
    -- the domain is ready: it serves the peer, or it is initialised anew
    have hready : ∀ domain, t.readyDomain (t.requests slot).peer d = .ok domain →
        Moves once safe t (t.setDomain d domain) [] := by
      intro domain hdom
      unfold readyDomain at hdom
      split_ifs at hdom with hs
      · cases hdom
        rw [setDomain_eq_self]
        exact .refl
      · unfold Domain.init at hdom
        split_ifs at hdom
        cases hdom
        exact .single (.reinit d _ _ hd (hserve.resolve_left hs).empty)
    cases hdom : t.readyDomain (t.requests slot).peer d with
    | error e => exact .refl
    | ok domain =>
      dsimp only
      have hm := hready domain hdom
      cases hiss : domain.issue with
      | error e => exact hm
      | ok out =>
        unfold Domain.issue at hiss
        split_ifs at hiss with hu
        cases hiss
        push Not at hu
        have hissue : Move once safe (t.setDomain d domain) _ _ := .issue slot d dstOff size dstMrIdx (some flushRecvComm)
          hslot hres hd (by rw [setDomain_self]; simpa using hu.1) fun ho => honce ho hres
        rw [setDomain_self] at hissue
        have hover : (t.setDomain d domain).setDomain d { domain with
            issuedGetSequence := domain.issuedGetSequence + 1 } = t.setDomain d { domain with
            issuedGetSequence := domain.issuedGetSequence + 1 } := by simp [setDomain]
        rw [hover] at hissue
        exact hm.step hissue

theorem remove_moves (hlive : (t.requests slot).state ≠ .free)
    (hsafe : ∀ d q, t.place slot = some (d, q) → safe → t.SafeRemoval slot d q) :
    (t.removeGetVisibilitySequence slot).1 = .success ∧
      Move once safe t ((t.removeGetVisibilitySequence slot).2.setRequest slot requestReset) [] := by
  have hstage := h.staged slot hslot
  unfold removeGetVisibilitySequence
  by_cases hzero : (t.requests slot).getSequence = 0
  · rw [if_pos hzero]
    refine ⟨rfl, .drop slot ?_⟩
    by_contra hne
    obtain ⟨⟨d, s⟩, hp⟩ := Option.ne_none_iff_exists'.1 hne
    have hpos := (h.home slot d s hp).2.2.1
    have hs := (place_eq_some.1 hp).2.2.2
    omega
  rw [if_neg hzero]
  cases hdom : (t.requests slot).getVisibilityDomain with
  | none => exact absurd (hstage.place hdom) hzero
  | some d =>
    have hp : t.place slot = some (d, (t.requests slot).getSequence) := place_eq_some.2 ⟨hslot, hlive, hdom, rfl⟩
    obtain ⟨hd, hu, hpos, hle⟩ := h.home slot d _ hp
    dsimp only
    rw [if_neg (not_le.2 hd), if_neg (by rw [hu]; simp [hle])]
    unfold Domain.removeIssue
    rw [if_neg (by rw [hu]; simp [hzero, hle])]
    refine ⟨rfl, ?_⟩
    have hm : Move once safe t _ _ := .remove slot d _ hp (hsafe d _ hp)
    unfold removed Domain.dropped dropNumber at hm
    rw [if_pos hle] at hm
    exact hm

theorem cancelRequest_moves : Moves once safe t (t.cancelRequest slot).2 [] := by
  unfold cancelRequest
  by_cases hres : (t.requests slot).state = .reserved
  swap
  · rw [if_pos hres]
    exact .refl
  -- the sequence of a reserved request is behind the data watermark
  have hsafe : ∀ d q, t.place slot = some (d, q) → safe → t.SafeRemoval slot d q := by
    intro d q hp _ _ _ hq
    obtain ⟨hd, hu, -, -⟩ := h.home slot d q hp
    have hc := h.early slot d q hp (hq.trans (h.marks d hd hu).2.1)
    exact absurd (hres.symm.trans ((h.staged slot hslot).complete hc).1) (by simp)
  obtain ⟨hok, hm⟩ := remove_moves once safe h hslot (by simp [hres]) hsafe
  rw [if_neg (not_not.2 hres), if_neg (not_not.2 hok)]
  exact .single hm

theorem abortRequest_moves (hsafe : ∀ d q, t.place slot = some (d, q) → safe → t.SafeRemoval slot d q) :
    Moves once safe t (t.abortRequest slot).2 [] := by
  unfold abortRequest
  by_cases hres : (t.requests slot).state ≠ .posted ∨ t.nativeInflight = 0
  · rw [if_pos hres]
    exact .refl
  rw [if_neg hres]
  push Not at hres
  obtain ⟨hok, hm⟩ := remove_moves once safe h hslot (by simp [hres.1]) hsafe
  rw [if_neg (not_not.2 hok)]
  exact (Moves.single hm).step (.keep rfl rfl rfl)

end

theorem completeRequest_moves
    (hvis : ∀ d s, t.place slot = some (d, s) → s ≤ (t.domains d).visibleGetSequence) (result : Result) :
    Moves once safe t (t.completeRequest slot result).2 [] := by
  unfold completeRequest
  dsimp only
  split_ifs with hp hout
  · exact .refl
  · exact .single (.keep rfl rfl rfl)
  · have hdrop : Move once safe t (t.setRequest slot requestReset) [] := by
      cases hpl : t.place slot with
      | none => exact .drop slot hpl
      | some p => exact .complete slot p.1 p.2 hpl (hvis p.1 p.2 hpl)
    exact (Moves.single hdrop).step (.keep rfl rfl rfl)

end Calls

end FlagCX.KernelProxy
