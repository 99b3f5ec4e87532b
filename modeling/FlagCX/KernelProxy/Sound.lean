import FlagCX.KernelProxy.Transport
import FlagCX.Lib.Window

/-!
# What the calls keep

`Sound` is the invariant of the kernel-proxy transport that every call keeps: the watermarks of a domain in use are in
order, the sequences of its requests are distinct and issued, and up to the data watermark none is missing and all are
complete. It is stated over `place`, the domain and sequence of the request in a slot.

* `Advances` : what posting and progress do to a request: its place stays, its data may become complete.
-/

namespace FlagCX.KernelProxy
open Function

open Net Lib

namespace Transport

/-- The domain and the sequence of the request that holds a slot. -/
def place (t : Transport) (i : Nat) : Option (Nat × Nat) :=
  if i < t.capacity ∧ (t.requests i).state ≠ .free then
    (t.requests i).getVisibilityDomain.map (·, (t.requests i).getSequence)
  else none

theorem place_eq_some {t : Transport} {i d s : Nat} :
    t.place i = some (d, s) ↔ i < t.capacity ∧ (t.requests i).state ≠ .free ∧
      (t.requests i).getVisibilityDomain = some d ∧ (t.requests i).getSequence = s := by
  unfold place
  split_ifs with h
  · simp [h.1, h.2]
  · simp only [false_iff]
    rintro ⟨hi, hs, -⟩
    exact h ⟨hi, hs⟩

section

variable (t : Transport)
include t

@[simp] theorem setRequest_capacity (i : Nat) (r : Request) : (t.setRequest i r).capacity = t.capacity := rfl

@[simp] theorem setRequest_domains (i : Nat) (r : Request) : (t.setRequest i r).domains = t.domains := rfl

@[simp] theorem setRequest_self (i : Nat) (r : Request) : (t.setRequest i r).requests i = r := update_self ..

theorem setRequest_ne {i j : Nat} (h : j ≠ i) (r : Request) :
    (t.setRequest i r).requests j = t.requests j := update_of_ne h _ _

@[simp] theorem setDomain_capacity (d : Nat) (domain : Domain) : (t.setDomain d domain).capacity = t.capacity := rfl

@[simp] theorem setDomain_requests (d : Nat) (domain : Domain) : (t.setDomain d domain).requests = t.requests := rfl

@[simp] theorem setDomain_self (d : Nat) (domain : Domain) : (t.setDomain d domain).domains d = domain := update_self ..

theorem setDomain_ne {d d' : Nat} (h : d' ≠ d) (domain : Domain) :
    (t.setDomain d domain).domains d' = t.domains d' := update_of_ne h _ _

@[simp] theorem setDomain_place (d : Nat) (domain : Domain) : (t.setDomain d domain).place = t.place := rfl

theorem setRequest_place (i : Nat) (r : Request) (j : Nat) : (t.setRequest i r).place j =
      if j = i then
        if i < t.capacity ∧ r.state ≠ .free then r.getVisibilityDomain.map (·, r.getSequence) else none
      else t.place j := by
  by_cases h : j = i
  · subst h
    simp [place]
  · simp [place, setRequest_ne t h, h]

end

end Transport

open Transport

/-- The stage of a request agrees with its state. -/
structure Staged (r : Request) : Prop where
  free : r.state = .free → r = requestReset
  place : r.getVisibilityDomain = none → r.getSequence = 0
  flush : r.requiresGetFlush = true ↔ r.getVisibilityDomain ≠ none
  pending : r.completionStage = .flushPending ↔ r.getDataComplete = true
  complete : r.getDataComplete = true → r.state = .posted ∧ r.requiresGetFlush = true
  request : r.state = .posted → r.completionStage = .dataPosted → r.request ≠ none

def Domain.Ordered (domain : Domain) : Prop :=
  domain.visibleGetSequence ≤ domain.flushTargetGetSequence ∧
    domain.flushTargetGetSequence ≤ domain.dataCompletedGetSequence ∧
    domain.dataCompletedGetSequence ≤ domain.issuedGetSequence

structure Sound (t : Transport) : Prop where
  staged : ∀ i < t.capacity, Staged (t.requests i)
  home : ∀ i d s, t.place i = some (d, s) →
    d < t.capacity ∧ (t.domains d).inUse = true ∧ 0 < s ∧ s ≤ (t.domains d).issuedGetSequence
  marks : ∀ d < t.capacity, (t.domains d).inUse = true → (t.domains d).Ordered
  distinct : ∀ i j d s, t.place i = some (d, s) → t.place j = some (d, s) → i = j
  early : ∀ i d s, t.place i = some (d, s) → s ≤ (t.domains d).dataCompletedGetSequence →
    (t.requests i).getDataComplete = true
  filled : ∀ d < t.capacity, (t.domains d).inUse = true → ∀ s, (t.domains d).visibleGetSequence < s →
    s ≤ (t.domains d).dataCompletedGetSequence → ∃ i, t.place i = some (d, s)

theorem staged_reset : Staged requestReset :=
  ⟨fun _ => rfl, fun _ => rfl, by simp [requestReset], by simp [requestReset], by simp [requestReset],
    by simp [requestReset]⟩

theorem init_eq {capacity : UInt32} {generation orderingKey : UInt64} {groups : Nat → ReleaseGroup} {t : Transport}
    (h : Transport.init capacity generation orderingKey groups = .ok t) :
    t.requests = (fun _ => requestReset) ∧ t.domains = fun _ => Domain.unused := by
  unfold Transport.init at h
  split_ifs at h
  cases hb : CompletionScoreboard.init capacity generation 1 with
  | error e => simp [hb, bind, Except.bind] at h
  | ok sb =>
    simp only [hb, bind, Except.bind, pure, Except.pure, Except.ok.injEq] at h
    subst h
    exact ⟨rfl, rfl⟩

theorem sound_init {t : Transport} (hr : t.requests = fun _ => requestReset) (hd : t.domains = fun _ => Domain.unused) :
    Sound t := by
  have hplace : ∀ i p, t.place i ≠ some p := by
    intro i p hp
    simp [place, hr, requestReset] at hp
  have hunused : ∀ d, (t.domains d).inUse ≠ true := by
    intro d
    simp [hd, Domain.unused]
  refine ⟨?_, fun i d s hp => absurd hp (hplace i _), fun d _ hu => absurd hu (hunused d),
    fun i j d s hp => absurd hp (hplace i _), fun i d s hp => absurd hp (hplace i _),
    fun d _ hu => absurd hu (hunused d)⟩
  intro i _
  rw [hr]
  exact staged_reset

/-! ## Requests that keep their place -/

/-- The request keeps its place; it may be posted and its data may become complete. -/
structure Advances (r r' : Request) : Prop where
  domain : r'.getVisibilityDomain = r.getVisibilityDomain
  sequence : r'.getSequence = r.getSequence
  live : r'.state = .free ↔ r.state = .free
  complete : r.getDataComplete = true → r'.getDataComplete = true
  staged : Staged r → Staged r'

theorem Advances.refl (r : Request) : Advances r r := ⟨rfl, rfl, Iff.rfl, id, id⟩

section Advance
variable {t t' : Transport}

theorem Advances.place (hc : t'.capacity = t.capacity) (ha : ∀ i, Advances (t.requests i) (t'.requests i)) :
    t'.place = t.place := by
  funext i
  simp only [Transport.place, hc, (ha i).domain, (ha i).sequence, ne_eq, (ha i).live]

theorem Sound.advance (h : Sound t) (hc : t'.capacity = t.capacity) (hd : t'.domains = t.domains)
    (ha : ∀ i, Advances (t.requests i) (t'.requests i)) : Sound t' := by
  have hp := Advances.place hc ha
  refine ⟨?_, ?_, ?_, ?_, ?_, ?_⟩
  · intro i hi
    rw [hc] at hi
    exact (ha i).staged (h.staged i hi)
  · rw [hp, hc, hd]
    exact h.home
  · rw [hc, hd]
    exact h.marks
  · rw [hp]
    exact h.distinct
  · rw [hp, hd]
    intro i d s hi hs
    exact (ha i).complete (h.early i d s hi hs)
  · rw [hp, hc, hd]
    exact h.filled

theorem advances_setRequest {i : Nat} {r : Request} (ha : Advances (t.requests i) r) (j : Nat) :
    Advances (t.requests j) ((t.setRequest i r).requests j) := by
  by_cases hj : j = i
  · subst hj
    rw [setRequest_self]
    exact ha
  · rw [setRequest_ne t hj]
    exact Advances.refl _

theorem advances_failCovered (t : Transport) (d v : Nat) (result : Result) (i : Nat) :
    Advances (t.requests i) ((t.failCovered d v result).requests i) := by
  simp only [failCovered]
  split_ifs with hc
  · refine ⟨rfl, rfl, Iff.rfl, id, fun hs => ⟨fun hf => ?_, hs.place, hs.flush, hs.pending, hs.complete, hs.request⟩⟩
    -- a covered request is posted
    simp only [postedIn, Bool.and_eq_true, beq_iff_eq] at hc
    exact absurd (hc.2.1.1.symm.trans hf) (by simp)
  · exact Advances.refl _

end Advance

/-! ## The watermarks of a domain -/

section Domain
variable {t : Transport} {d : Nat} {domain : Domain}

theorem Sound.setDomain (h : Sound t)
    (hhome : ∀ i s, t.place i = some (d, s) → domain.inUse = true ∧ s ≤ domain.issuedGetSequence)
    (hmarks : domain.Ordered)
    (hearly : ∀ i s, t.place i = some (d, s) → s ≤ domain.dataCompletedGetSequence → (t.requests i).getDataComplete = true)
    (hfilled : ∀ s, domain.visibleGetSequence < s → s ≤ domain.dataCompletedGetSequence →
      ∃ i, t.place i = some (d, s)) : Sound (t.setDomain d domain) := by
  refine ⟨h.staged, ?_, ?_, h.distinct, ?_, ?_⟩
  · intro i d' s hi
    obtain ⟨hc, hu, hpos, hle⟩ := h.home i d' s hi
    by_cases hd : d' = d
    · subst hd
      rw [setDomain_self]
      exact ⟨hc, (hhome i s hi).1, hpos, (hhome i s hi).2⟩
    · rw [setDomain_ne t hd]
      exact ⟨hc, hu, hpos, hle⟩
  · intro d' hc hu
    by_cases hd : d' = d
    · subst hd
      rw [setDomain_self]
      exact hmarks
    · rw [setDomain_ne t hd] at hu ⊢
      exact h.marks d' hc hu
  · intro i d' s hi hs
    by_cases hd : d' = d
    · subst hd
      rw [setDomain_self] at hs
      exact hearly i s hi hs
    · rw [setDomain_ne t hd] at hs
      exact h.early i d' s hi hs
  · intro d' hc hu
    by_cases hd : d' = d
    · subst hd
      rw [setDomain_self]
      exact hfilled
    · rw [setDomain_ne t hd] at hu ⊢
      exact h.filled d' hc hu

theorem Sound.moveMarks (h : Sound t) (hd : d < t.capacity) (hu : (t.domains d).inUse = true)
    (hin : domain.inUse = true) (hissued : domain.issuedGetSequence = (t.domains d).issuedGetSequence)
    (hvis : (t.domains d).visibleGetSequence ≤ domain.visibleGetSequence) (hmarks : domain.Ordered)
    (hdata : ∀ s, (t.domains d).dataCompletedGetSequence < s → s ≤ domain.dataCompletedGetSequence →
      ∃ i, t.place i = some (d, s) ∧ (t.requests i).getDataComplete = true) : Sound (t.setDomain d domain) := by
  refine h.setDomain (fun i s hi => ⟨hin, by rw [hissued]; exact (h.home i d s hi).2.2.2⟩) hmarks ?_ ?_
  · intro i s hi hs
    by_cases hle : s ≤ (t.domains d).dataCompletedGetSequence
    · exact h.early i d s hi hle
    · obtain ⟨j, hj, hc⟩ := hdata s (by omega) hs
      rw [h.distinct i j d s hi hj]
      exact hc
  · intro s hv hs
    by_cases hle : s ≤ (t.domains d).dataCompletedGetSequence
    · exact h.filled d hd hu s (by omega) hle
    · obtain ⟨j, hj, -⟩ := hdata s (by omega) hs
      exact ⟨j, hj⟩

end Domain

/-! ## Requests that come and go -/

section Places
variable {t : Transport} {slot d : Nat} {r : Request}

theorem Sound.outside (h : Sound t) (hr : Staged r) (hold : t.place slot = none)
    (hnew : (t.setRequest slot r).place slot = none) : Sound (t.setRequest slot r) := by
  have hp : (t.setRequest slot r).place = t.place := by
    funext i
    by_cases hi : i = slot
    · rw [hi, hold, hnew]
    · rw [setRequest_place, if_neg hi]
  have hreq : ∀ i d s, t.place i = some (d, s) → (t.setRequest slot r).requests i = t.requests i := by
    intro i d s hi
    refine setRequest_ne t (fun he => ?_) r
    rw [he, hold] at hi
    exact absurd hi (by simp)
  refine ⟨?_, ?_, h.marks, ?_, ?_, ?_⟩
  · intro i hi
    by_cases he : i = slot
    · rw [he, setRequest_self]
      exact hr
    · rw [setRequest_ne t he]
      exact h.staged i hi
  · rw [hp]
    exact h.home
  · rw [hp]
    exact h.distinct
  · rw [hp]
    intro i d s hi hs
    rw [hreq i d s hi]
    exact h.early i d s hi hs
  · rw [hp]
    exact h.filled

theorem Sound.enter {s : Nat} (h : Sound t) (hslot : slot < t.capacity) (hd : d < t.capacity)
    (hu : (t.domains d).inUse = true) (hold : (t.requests slot).getDataComplete = false) (hr : Staged r)
    (hplace : (t.setRequest slot r).place slot = some (d, s)) (hdata : (t.domains d).dataCompletedGetSequence < s)
    (hissued : s ≤ (t.domains d).issuedGetSequence) (hown : ∀ i, t.place i ≠ some (d, s)) :
    Sound (t.setRequest slot r) := by
  have hp : ∀ i, i ≠ slot → (t.setRequest slot r).place i = t.place i := by
    intro i hi
    rw [setRequest_place, if_neg hi]
  refine ⟨?_, ?_, h.marks, ?_, ?_, ?_⟩
  · intro i hi
    by_cases he : i = slot
    · rw [he, setRequest_self]
      exact hr
    · rw [setRequest_ne t he]
      exact h.staged i hi
  · intro i d' s' hi
    by_cases he : i = slot
    · rw [he, hplace] at hi
      cases hi
      exact ⟨hd, hu, by omega, hissued⟩
    · rw [hp i he] at hi
      exact h.home i d' s' hi
  · intro i j d' s' hi hj
    by_cases hei : i = slot
    · by_cases hej : j = slot
      · rw [hei, hej]
      · rw [hei, hplace] at hi
        cases hi
        rw [hp j hej] at hj
        exact absurd hj (hown j)
    · rw [hp i hei] at hi
      by_cases hej : j = slot
      · rw [hej, hplace] at hj
        cases hj
        exact absurd hi (hown i)
      · rw [hp j hej] at hj
        exact h.distinct i j d' s' hi hj
  · intro i d' s' hi hs
    by_cases he : i = slot
    · rw [he, hplace] at hi
      cases hi
      exact absurd (hdata.trans_le hs) (lt_irrefl _)
    · rw [hp i he] at hi
      rw [setRequest_ne t he]
      exact h.early i d' s' hi hs
  · intro d' hc hu' s' hv hs
    obtain ⟨i, hi⟩ := h.filled d' hc hu' s' hv hs
    refine ⟨i, ?_⟩
    -- the old place of the slot was behind the data watermark
    have he : i ≠ slot := by
      rintro rfl
      have hc := h.early i d' s' hi hs
      rw [hold] at hc
      exact absurd hc (by simp)
    rw [hp i he]
    exact hi

theorem Sound.release (h : Sound t) (hvis : ∀ d s, t.place slot = some (d, s) → s ≤ (t.domains d).visibleGetSequence) :
    Sound (t.setRequest slot requestReset) := by
  have hp : ∀ i, (t.setRequest slot requestReset).place i = if i = slot then none else t.place i := by
    intro i
    rw [setRequest_place]
    simp [requestReset]
  have hold : ∀ {i d s}, (t.setRequest slot requestReset).place i = some (d, s) → i ≠ slot ∧ t.place i = some (d, s) := by
    intro i d s hi
    rw [hp] at hi
    split_ifs at hi with he
    exact ⟨he, hi⟩
  refine ⟨?_, ?_, h.marks, ?_, ?_, ?_⟩
  · intro i hi
    by_cases he : i = slot
    · rw [he, setRequest_self]
      exact staged_reset
    · rw [setRequest_ne t he]
      exact h.staged i hi
  · intro i d s hi
    exact h.home i d s (hold hi).2
  · intro i j d s hi hj
    exact h.distinct i j d s (hold hi).2 (hold hj).2
  · intro i d s hi hs
    rw [setRequest_ne t (hold hi).1]
    exact h.early i d s (hold hi).2 hs
  · intro d hc hu s hv hs
    obtain ⟨i, hi⟩ := h.filled d hc hu s hv hs
    refine ⟨i, ?_⟩
    have he : i ≠ slot := by
      rintro rfl
      exact absurd (hvis d s hi) (not_le.2 hv)
    rw [hp, if_neg he]
    exact hi

end Places

/-! ## Removing a request -/

/-- The domain after `q` was taken out of its numbering. -/
def Domain.dropped (domain : Domain) (q : Nat) : Domain :=
  { domain with
    issuedGetSequence := dropNumber q domain.issuedGetSequence
    dataCompletedGetSequence := dropNumber q domain.dataCompletedGetSequence
    flushTargetGetSequence := dropNumber q domain.flushTargetGetSequence
    visibleGetSequence := dropNumber q domain.visibleGetSequence }

/-- The transport without the request of a slot at place `q` of domain `d`. -/
def Transport.removed (t : Transport) (slot d q : Nat) : Transport :=
  ({ t with requests := fun i => if i < t.capacity then renumber d q (t.requests i) else t.requests i }.setDomain d
    ((t.domains d).dropped q)).setRequest slot requestReset

theorem renumber_keeps (d q : Nat) (r : Request) :
    (renumber d q r).state = r.state ∧ (renumber d q r).getVisibilityDomain = r.getVisibilityDomain ∧
      (renumber d q r).getDataComplete = r.getDataComplete ∧ (renumber d q r).completionResult = r.completionResult := by
  unfold renumber
  split_ifs
  · exact ⟨rfl, rfl, rfl, rfl⟩
  · exact ⟨rfl, rfl, rfl, rfl⟩

theorem renumber_sequence {d q : Nat} {r : Request} (hs : r.state ≠ .free) (hd : r.getVisibilityDomain = some d)
    (hq : r.getSequence ≠ q) : (renumber d q r).getSequence = dropNumber q r.getSequence := by
  unfold renumber dropNumber
  by_cases hlt : q < r.getSequence
  · rw [if_pos ⟨hs, hd, hlt⟩, if_pos hlt.le]
  · rw [if_neg (fun hc => hlt hc.2.2), if_neg (by omega)]

theorem renumber_other {d q : Nat} {r : Request} (hd : r.getVisibilityDomain ≠ some d) : renumber d q r = r := by
  unfold renumber
  rw [if_neg (fun hc => hd hc.2.1)]

theorem staged_renumber {d q : Nat} {r : Request} (h : Staged r) : Staged (renumber d q r) := by
  unfold renumber
  split_ifs with hc
  · refine ⟨fun hf => absurd hf hc.1, fun hn => ?_, h.flush, h.pending, h.complete, h.request⟩
    exact absurd (hc.2.1.symm.trans hn) (by simp)
  · exact h

section Removed
variable {t : Transport} {slot d q : Nat}

theorem removed_request {i : Nat} (hi : i ≠ slot) (hc : i < t.capacity) :
    (t.removed slot d q).requests i = renumber d q (t.requests i) := by
  unfold removed
  rw [setRequest_ne _ hi]
  simp [hc]

theorem removed_domain (d' : Nat) :
    (t.removed slot d q).domains d' = if d' = d then (t.domains d).dropped q else t.domains d' := by
  unfold removed
  by_cases hd : d' = d
  · subst hd
    simp
  · rw [setRequest_domains, setDomain_ne _ hd, if_neg hd]

theorem removed_place (h : Sound t) (hslot : t.place slot = some (d, q)) (i d' s' : Nat) :
    (t.removed slot d q).place i = some (d', s') ↔ i ≠ slot ∧
      ∃ s, t.place i = some (d', s) ∧ s' = if d' = d then dropNumber q s else s := by
  by_cases hi : i = slot
  · subst hi
    simp [removed, setRequest_place, requestReset]
  simp only [place_eq_some, ne_eq, hi, not_false_eq_true, true_and]
  constructor
  · rintro ⟨hc, hs, hd, hseq⟩
    change i < t.capacity at hc
    rw [removed_request hi hc] at hs hd hseq
    rw [(renumber_keeps d q _).1] at hs
    rw [(renumber_keeps d q _).2.1] at hd
    refine ⟨_, ⟨hc, hs, hd, rfl⟩, ?_⟩
    by_cases he : d' = d
    · subst he
      have hne : (t.requests i).getSequence ≠ q := by
        intro hq
        exact hi (h.distinct i slot d' q (place_eq_some.2 ⟨hc, hs, hd, hq⟩) hslot)
      rw [if_pos rfl, ← hseq, renumber_sequence hs hd hne]
    · rw [if_neg he, ← hseq, renumber_other (by simpa [hd] using he)]
  · rintro ⟨s, ⟨hc, hs, hd, hseq⟩, he⟩
    have hc' : i < (t.removed slot d q).capacity := hc
    refine ⟨hc', ?_⟩
    rw [removed_request hi hc]
    refine ⟨by rw [(renumber_keeps d q _).1]; exact hs, by rw [(renumber_keeps d q _).2.1]; exact hd, ?_⟩
    by_cases hdd : d' = d
    · subst hdd
      have hne : (t.requests i).getSequence ≠ q := by
        intro hq
        exact hi (h.distinct i slot d' q (place_eq_some.2 ⟨hc, hs, hd, hq⟩) hslot)
      rw [he, if_pos rfl, renumber_sequence hs hd hne, hseq]
    · rw [he, if_neg hdd, renumber_other (by simpa [hd] using hdd), hseq]

theorem Sound.remove (h : Sound t) (hslot : t.place slot = some (d, q)) : Sound (t.removed slot d q) := by
  obtain ⟨hd, hu, hq, hle⟩ := h.home slot d q hslot
  obtain ⟨hv, hf, hi⟩ := h.marks d hd hu
  have hplace := removed_place h hslot
  -- the sequences that stay are not the one taken out
  have hne : ∀ i s, i ≠ slot → t.place i = some (d, s) → s ≠ q := by
    rintro i s his hp rfl
    exact his (h.distinct i slot d s hp hslot)
  refine ⟨?_, ?_, ?_, ?_, ?_, ?_⟩
  · intro i hc
    change i < t.capacity at hc
    by_cases he : i = slot
    · rw [he, removed, setRequest_self]
      exact staged_reset
    · rw [removed_request he hc]
      exact staged_renumber (h.staged i hc)
  · intro i d' s' hp
    obtain ⟨his, s, hs, rfl⟩ := (hplace i d' s').1 hp
    obtain ⟨hd', hu', hpos, hle'⟩ := h.home i d' s hs
    rw [removed_domain]
    by_cases hdd : d' = d
    · subst hdd
      rw [if_pos rfl, if_pos rfl]
      refine ⟨hd', hu', ?_, dropNumber_mono q hle'⟩
      have hnum := hne i s his hs
      unfold dropNumber
      split_ifs <;> omega
    · rw [if_neg hdd, if_neg hdd]
      exact ⟨hd', hu', hpos, hle'⟩
  · intro d' hc hu'
    rw [removed_domain] at hu' ⊢
    split_ifs at hu' ⊢ with hdd
    · exact ⟨dropNumber_mono q hv, dropNumber_mono q hf, dropNumber_mono q hi⟩
    · exact h.marks d' hc hu'
  · intro i j d' s' hpi hpj
    obtain ⟨his, s, hs, rfl⟩ := (hplace i d' s').1 hpi
    obtain ⟨hjs, r, hr, he⟩ := (hplace j d' _).1 hpj
    by_cases hdd : d' = d
    · subst hdd
      rw [if_pos rfl, if_pos rfl] at he
      have hsr := dropNumber_inj (hne i s his hs) (hne j r hjs hr) he
      subst hsr
      exact h.distinct i j d' s hs hr
    · rw [if_neg hdd, if_neg hdd] at he
      subst he
      exact h.distinct i j d' s hs hr
  · intro i d' s' hp hle'
    obtain ⟨his, s, hs, rfl⟩ := (hplace i d' s').1 hp
    have hc := (place_eq_some.1 hs).1
    rw [removed_request his hc, (renumber_keeps d q _).2.2.1]
    rw [removed_domain] at hle'
    by_cases hdd : d' = d
    · subst hdd
      rw [if_pos rfl, if_pos rfl] at hle'
      exact h.early i d' s hs ((dropNumber_le hq (hne i s his hs)).1 hle')
    · rw [if_neg hdd, if_neg hdd] at hle'
      exact h.early i d' s hs hle'
  · intro d' hc hu' s' hv' hs'
    rw [removed_domain] at hu' hv' hs'
    by_cases hdd : d' = d
    · subst hdd
      rw [if_pos rfl] at hu' hv' hs'
      obtain ⟨s, hsq, rfl⟩ := exists_dropNumber q s'
      have hvs : (t.domains d').visibleGetSequence < s := by
        rw [← not_le] at hv' ⊢
        exact fun hsv => hv' ((dropNumber_le hq hsq).2 hsv)
      obtain ⟨i, hp⟩ := h.filled d' hc hu s hvs ((dropNumber_le hq hsq).1 hs')
      refine ⟨i, (hplace i d' _).2 ⟨?_, s, hp, by rw [if_pos rfl]⟩⟩
      rintro rfl
      rw [hslot] at hp
      exact hsq (by simpa using hp.symm)
    · rw [if_neg hdd] at hu' hv' hs'
      obtain ⟨i, hp⟩ := h.filled d' hc hu' s' hv' hs'
      refine ⟨i, (hplace i d' s').2 ⟨?_, s', hp, by rw [if_neg hdd]⟩⟩
      rintro rfl
      rw [hslot] at hp
      exact hdd (by simpa using (congrArg (Option.map Prod.fst) hp).symm)

end Removed

end FlagCX.KernelProxy
