import FlagCX.KernelProxy.Visibility

/-!
# A GET is flushed before it is visible

`Logged` ties the transport to the log of the run: the requests in the range of an outstanding flush are covered by
the flush posted last in their domain, and a visible request without an error was covered by a flush that succeeded.
-/

namespace FlagCX.KernelProxy
open List Function

open Net Lib Transport

/-! ## The log -/

def PostAnswer.Taken (answer : PostAnswer) : Prop :=
  answer.result = .success ∨ (answer.result = .inProgress ∧ answer.request ≠ none)

def Note.Turns (d : Nat) : Note → Prop
  | .data _ => False
  | .test d' answer => d' = d ∧ answer.Final
  | .post d' _ _ => d' = d

/-- After the data of request `id` was noted, at position `k` a flush of `d` was posted and taken that covers it. -/
def CoveredBy (log : List Note) (id d k : Nat) (answer : PostAnswer) : Prop :=
  ∃ j covered, j < k ∧ log[j]? = some (.data id) ∧ log[k]? = some (.post d covered answer) ∧ id ∈ covered ∧ answer.Taken

/-- A flush of `d` that covers `id` is outstanding: nothing later in the log ends it. -/
def Awaits (log : List Note) (id d : Nat) : Prop :=
  ∃ k answer, CoveredBy log id d k answer ∧ ∀ m n, k < m → log[m]? = some n → ¬ n.Turns d

/-- A flush that covers `id` was posted after its data was complete, and its request, if any, was tested done. -/
def Flushed (log : List Note) (id : Nat) : Prop :=
  ∃ d k answer, CoveredBy log id d k answer ∧
    (answer.request = none ∨ ∃ m, k < m ∧ log[m]? = some (.test d ⟨.success, true⟩) ∧
      ∀ l n, k < l → l < m → log[l]? = some n → ¬ n.Turns d)

section Log
variable {log more : List Note} {id d k : Nat} {answer : PostAnswer}

theorem getElem?_append_of_some {i : Nat} {n : Note} (h : log[i]? = some n) : (log ++ more)[i]? = some n := by
  rw [getElem?_append_left (List.getElem?_eq_some_iff.1 h).1]
  exact h

theorem CoveredBy.append (h : CoveredBy log id d k answer) : CoveredBy (log ++ more) id d k answer := by
  obtain ⟨j, covered, hjk, hj, hk, hmem, hacc⟩ := h
  exact ⟨j, covered, hjk, getElem?_append_of_some hj, getElem?_append_of_some hk, hmem, hacc⟩

theorem CoveredBy.lt (h : CoveredBy log id d k answer) : k < log.length := by
  obtain ⟨j, covered, hjk, hj, hk, hmem, hacc⟩ := h
  exact (List.getElem?_eq_some_iff.1 hk).1

theorem getElem?_of_append {i : Nat} {n : Note} (hi : i < log.length) (h : (log ++ more)[i]? = some n) :
    log[i]? = some n := by
  rwa [getElem?_append_left hi] at h

theorem Flushed.append (h : Flushed log id) : Flushed (log ++ more) id := by
  obtain ⟨d, k, answer, hcov, hdone⟩ := h
  refine ⟨d, k, answer, hcov.append, ?_⟩
  rcases hdone with hnone | ⟨m, hkm, hm, hquiet⟩
  · exact .inl hnone
  · refine .inr ⟨m, hkm, getElem?_append_of_some hm, fun l n hl hlm hn => ?_⟩
    have hlen := (List.getElem?_eq_some_iff.1 hm).1
    exact hquiet l n hl hlm (getElem?_of_append (hlm.trans hlen) hn)

theorem Awaits.append (h : Awaits log id d) (hquiet : ∀ n ∈ more, ¬ n.Turns d) : Awaits (log ++ more) id d := by
  obtain ⟨k, answer, hcov, hlast⟩ := h
  refine ⟨k, answer, hcov.append, fun m n hm hn => ?_⟩
  by_cases hlen : m < log.length
  · exact hlast m n hm (getElem?_of_append hlen hn)
  · rw [getElem?_append_right (not_lt.1 hlen)] at hn
    exact hquiet n (mem_of_getElem? hn)

theorem Awaits.finish (h : Awaits log id d) : Flushed (log ++ [.test d ⟨.success, true⟩]) id := by
  obtain ⟨k, answer, hcov, hlast⟩ := h
  refine ⟨d, k, answer, hcov.append, .inr ⟨log.length, hcov.lt, ?_, fun l n hl hlm hn => ?_⟩⟩
  · simp
  · exact hlast l n hl (getElem?_of_append hlm hn)

section

variable {covered : List Nat} (hdata : .data id ∈ log) (hmem : id ∈ covered) (ht : answer.Taken)
include hdata hmem ht

theorem coveredBy_post : CoveredBy (log ++ [.post d covered answer]) id d log.length answer := by
  obtain ⟨j, hj⟩ := mem_iff_getElem?.1 hdata
  refine ⟨j, covered, (List.getElem?_eq_some_iff.1 hj).1, getElem?_append_of_some hj, ?_, hmem, ht⟩
  simp

theorem awaits_post : Awaits (log ++ [.post d covered answer]) id d := by
  refine ⟨log.length, answer, coveredBy_post hdata hmem ht, fun m n hm hn => ?_⟩
  have hlen := (List.getElem?_eq_some_iff.1 hn).1
  simp at hlen
  omega

end

end Log

/-! ## The transport and the log -/

/-- The log accounts for the data, the outstanding flushes and the visible requests of the transport. -/
structure Logged (ids : Nat → Nat) (log : List Note) (t : Transport) : Prop where
  data : ∀ i < t.capacity, (t.requests i).getDataComplete = true → .data (ids i) ∈ log
  awaits : ∀ i d q, t.place i = some (d, q) → (t.domains d).flushRequest ≠ none →
    (t.domains d).visibleGetSequence < q → q ≤ (t.domains d).flushTargetGetSequence → Awaits log (ids i) d
  flushed : ∀ i d q, t.place i = some (d, q) → q ≤ (t.domains d).visibleGetSequence →
    (t.requests i).completionResult = .success → Flushed log (ids i)

section Logged
variable {once safe : Prop} {ids : Nat → Nat} {log more : List Note} {t t' : Transport} {d slot : Nat}

theorem Logged.quiet (h : Logged ids log t) (hq : ∀ n ∈ more, ∀ d, ¬ n.Turns d) : Logged ids (log ++ more) t := by
  refine ⟨fun i hi hc => mem_append_left _ (h.data i hi hc), ?_, ?_⟩
  · intro i d q hp hr hv hw
    exact (h.awaits i d q hp hr hv hw).append fun n hn => hq n hn d
  · intro i d q hp hv hc
    exact (h.flushed i d q hp hv hc).append

theorem Logged.setRequest {r : Request} (h : Logged ids log t) (hs : Sound (t.setRequest slot r))
    (hdata : r.getDataComplete = true → .data (ids slot) ∈ log)
    (hplace : ∀ d q, (t.setRequest slot r).place slot = some (d, q) → (t.domains d).flushTargetGetSequence < q) :
    Logged ids log (t.setRequest slot r) := by
  refine ⟨?_, ?_, ?_⟩
  · intro i hi hc
    by_cases he : i = slot
    · subst he
      rw [setRequest_self] at hc
      exact hdata hc
    · rw [setRequest_ne t he] at hc
      exact h.data i hi hc
  · intro i d q hp hr hv hw
    by_cases he : i = slot
    · subst he
      exact absurd hw (not_le.2 (hplace d q hp))
    · rw [setRequest_place, if_neg he] at hp
      exact h.awaits i d q hp hr hv hw
  · intro i d q hp hv hc
    by_cases he : i = slot
    · subst he
      obtain ⟨hd, hu, -, -⟩ := hs.home i d q hp
      have hle := (hs.marks d hd hu).1
      exact absurd (hv.trans hle) (not_le.2 (hplace d q hp))
    · rw [setRequest_place, if_neg he] at hp
      rw [setRequest_ne t he] at hc
      exact h.flushed i d q hp hv hc

theorem Logged.setDomain (h : Logged ids log t) {domain : Domain} (hother : ∀ n ∈ more, ∀ d', d' ≠ d → ¬ n.Turns d')
    (hawaits : ∀ i q, t.place i = some (d, q) → domain.flushRequest ≠ none → domain.visibleGetSequence < q →
      q ≤ domain.flushTargetGetSequence → Awaits (log ++ more) (ids i) d)
    (hflushed : ∀ i q, t.place i = some (d, q) → q ≤ domain.visibleGetSequence →
      (t.requests i).completionResult = .success → Flushed (log ++ more) (ids i)) :
    Logged ids (log ++ more) (t.setDomain d domain) := by
  refine ⟨fun i hi hc => mem_append_left _ (h.data i hi hc), ?_, ?_⟩
  · intro i d' q hp hr hv hw
    by_cases he : d' = d
    · subst he
      rw [setDomain_self] at hr hv hw
      exact hawaits i q hp hr hv hw
    · rw [setDomain_ne t he] at hr hv hw
      exact (h.awaits i d' q hp hr hv hw).append fun n hn => hother n hn d' he
  · intro i d' q hp hv hc
    by_cases he : d' = d
    · subst he
      rw [setDomain_self] at hv
      exact hflushed i q hp hv hc
    · rw [setDomain_ne t he] at hv
      exact (h.flushed i d' q hp hv hc).append

theorem finished_complete (t : Transport) (d : Nat) (result : Result) (i : Nat) :
    ((t.finished d result).requests i).getDataComplete = (t.requests i).getDataComplete := by
  unfold finished failCovered
  split_ifs
  · dsimp only
    split_ifs <;> rfl
  · rfl

theorem Sound.finished_success (h : Sound t) (hd : d < t.capacity) (hu : (t.domains d).inUse = true) {result : Result}
    {i : Nat} (hc : ((t.finished d result).requests i).completionResult = .success) :
    (t.requests i).completionResult = .success ∧ ∀ q, t.place i = some (d, q) → (t.domains d).visibleGetSequence < q →
        q ≤ (t.domains d).flushTargetGetSequence → result = .success := by
  unfold Transport.finished failCovered at hc
  split_ifs at hc with hres
  · simp only [setDomain_requests, setDomain_capacity, setDomain_self] at hc
    split_ifs at hc with hcov
    · exact absurd hc hres
    · refine ⟨hc, fun q hp hv hw => absurd ⟨?_, ?_, ?_, ?_, hc⟩ hcov⟩
      · exact (place_eq_some.1 hp).1
      · exact h.posted hp (hw.trans (h.marks d hd hu).2.1)
      · rw [(place_eq_some.1 hp).2.2.2]
        exact hv
      · rw [(place_eq_some.1 hp).2.2.2]
        exact hw
  · exact ⟨hc, fun _ _ _ _ => not_not.1 hres⟩

theorem Logged.finished (h : Logged ids log t) (hs : Sound t) (hd : d < t.capacity) (hu : (t.domains d).inUse = true)
    {result : Result} (hother : ∀ n ∈ more, ∀ d', d' ≠ d → ¬ n.Turns d')
    (hok : result = .success → ∀ i q, t.place i = some (d, q) → (t.domains d).visibleGetSequence < q →
      q ≤ (t.domains d).flushTargetGetSequence → Flushed (log ++ more) (ids i)) :
    Logged ids (log ++ more) (t.finished d result) := by
  refine ⟨?_, ?_, ?_⟩
  · intro i hi hc
    rw [finished_complete] at hc
    rw [finished_capacity] at hi
    exact mem_append_left _ (h.data i hi hc)
  · intro i d' q hp hr hv hw
    rw [finished_place] at hp
    by_cases he : d' = d
    · subst he
      rw [finished_self] at hr
      exact absurd rfl hr
    · rw [finished_domains, setDomain_ne t he] at hr hv hw
      exact (h.awaits i d' q hp hr hv hw).append fun n hn => hother n hn d' he
  · intro i d' q hp hv hc
    rw [finished_place] at hp
    obtain ⟨hold, hrange⟩ := hs.finished_success hd hu hc
    by_cases he : d' = d
    · subst he
      rw [finished_self] at hv
      by_cases hq : q ≤ (t.domains d').visibleGetSequence
      · exact (h.flushed i d' q hp hq hold).append
      · exact hok (hrange q hp (not_le.1 hq) hv) i q hp (not_le.1 hq) hv
    · rw [finished_domains, setDomain_ne t he] at hv
      exact (h.flushed i d' q hp hv hold).append

theorem held_finished (t : Transport) (d : Nat) (request : Option Nat) (result : Result) :
    (t.held d request).finished d result = t.finished d result := by
  unfold Transport.finished held failCovered
  simp [Transport.setDomain]

section

variable (h : Logged ids log t) (hs : Sound t)
include h hs

theorem Logged.remove {q : Nat} (hslot : t.place slot = some (d, q)) : Logged ids log (t.removed slot d q) := by
  obtain ⟨-, -, hpos, -⟩ := hs.home slot d q hslot
  refine ⟨?_, ?_, ?_⟩
  · intro i hi hc
    change i < t.capacity at hi
    by_cases he : i = slot
    · rw [he, removed, setRequest_self] at hc
      exact absurd hc (by simp [requestReset])
    · rw [removed_request he hi, (renumber_keeps d q _).2.2.1] at hc
      exact h.data i hi hc
  · intro i d' n' hp hr hv hw
    obtain ⟨hi, n, hn, rfl⟩ := (removed_place hs hslot i d' n').1 hp
    rw [removed_domain] at hr hv hw
    by_cases he : d' = d
    · subst he
      simp only [if_true] at hr hv hw
      have hne : n ≠ q := by
        rintro rfl
        exact hi (hs.distinct i slot d' n hn hslot)
      refine h.awaits i d' n hn hr ?_ ((dropNumber_le hpos hne).1 hw)
      rw [← not_le] at hv ⊢
      exact fun hle => hv ((dropNumber_le hpos hne).2 hle)
    · simp only [if_neg he] at hr hv hw
      exact h.awaits i d' n hn hr hv hw
  · intro i d' n' hp hv hc
    obtain ⟨hi, n, hn, rfl⟩ := (removed_place hs hslot i d' n').1 hp
    rw [removed_request hi (place_eq_some.1 hn).1, (renumber_keeps d q _).2.2.2] at hc
    rw [removed_domain] at hv
    by_cases he : d' = d
    · subst he
      simp only [if_true] at hv
      have hne : n ≠ q := by
        rintro rfl
        exact hi (hs.distinct i slot d' n hn hslot)
      exact h.flushed i d' n hn ((dropNumber_le hpos hne).1 hv) hc
    · simp only [if_neg he] at hv
      exact h.flushed i d' n hn hv hc

theorem Logged.covered (hd : d < t.capacity) (hu : (t.domains d).inUse = true) {i q : Nat} (hp : t.place i = some (d, q))
    (hw : q ≤ (t.domains d).flushTargetGetSequence) : .data (ids i) ∈ log ∧ ids i ∈ (t.coveredSlots d).map ids := by
  have hdata := hw.trans (hs.marks d hd hu).2.1
  obtain ⟨hi, -, -, hq⟩ := place_eq_some.1 hp
  refine ⟨h.data i hi (hs.early i d q hp hdata), mem_map_of_mem ?_⟩
  unfold coveredSlots
  rw [mem_filter]
  exact ⟨mem_range.2 hi, by simp [hs.posted hp hdata, hq, hw]⟩

/-- **A move and its notes keep the log in step with the transport.** -/
theorem Logged.move {ns : List Note} (hm : Move once safe t t' ns) : Logged ids (log ++ ns.map (Note.rename ids)) t' := by
  have hs' := hs.move hm
  have hnoted : ∀ slot, Logged ids (log ++ [Note.data (ids slot)]) t := by
    intro slot
    refine h.quiet fun n hn d ht => ?_
    rw [mem_singleton] at hn
    subst hn
    exact ht
  cases hm with
  | keep hr hd hc =>
    have hplace : t'.place = t.place := by
      funext i
      simp only [place, hr, hc]
    rw [map_nil, append_nil]
    refine ⟨?_, ?_, ?_⟩
    · rw [hr, hc]
      exact h.data
    · rw [hplace, hd]
      exact h.awaits
    · rw [hplace, hr, hd]
      exact h.flushed
  | dataDone slot c hp hf =>
    refine (hnoted slot).setRequest hs' (fun _ => by simp) fun d q hpl => ?_
    obtain ⟨hi, -, hdom, -⟩ := place_eq_some.1 hpl
    rw [setRequest_self] at hdom
    change (t.requests slot).getVisibilityDomain = some d at hdom
    exact absurd (hf.symm.trans ((hs.staged slot hi).flush.2 (by simp [hdom]))) (by simp)
  | dataComplete slot c hslot hp hst hf =>
    refine (hnoted slot).setRequest hs' (fun _ => by simp) fun d q hpl => ?_
    have hopen : (t.requests slot).getDataComplete = false := by
      by_contra hc
      exact absurd (hst.symm.trans ((hs.staged slot hslot).pending.2 (by simpa using hc))) (by simp)
    refine hs.behind hopen ?_
    obtain ⟨hi, -, hdom, hq⟩ := place_eq_some.1 hpl
    rw [setRequest_self] at hdom hq
    exact place_eq_some.2 ⟨hi, by simp [hp], hdom, hq⟩
  | flushWait d answer hw =>
    refine h.quiet fun n hn d' ht => ?_
    simp only [map_cons, map_nil, mem_singleton] at hn
    subst hn
    exact hw ht.2
  | flushDone d answer hd hu hr ha =>
    refine h.finished hs hd hu (fun n hn d' he ht => ?_) fun hok i q hp hv hw => ?_
    · simp only [map_cons, map_nil, mem_singleton] at hn
      subst hn
      exact he ht.1.symm
    · have hdone : answer = ⟨.success, true⟩ := by
        obtain ⟨result, done⟩ := answer
        cases hok
        simpa [TestAnswer.Final] using ha
      rw [hdone]
      exact (h.awaits i d q hp hr hv hw).finish
  | advance d c hd hu hlow hhigh hdata =>
    refine h.setDomain (fun n hn => absurd hn not_mem_nil) ?_ ?_
    · intro i q hp hr hv hw
      exact (h.awaits i d q hp hr hv hw).append fun n hn => absurd hn not_mem_nil
    · intro i q hp hv hc
      exact (h.flushed i d q hp hv hc).append
  | skip d hd hu hr ht hnone =>
    refine h.setDomain (fun n hn => absurd hn not_mem_nil) (fun i q hp hreq => absurd hr hreq) ?_
    intro i q hp hv hc
    by_cases hq : q ≤ (t.domains d).visibleGetSequence
    · exact (h.flushed i d q hp hq hc).append
    · exact absurd ⟨q, hp, not_le.1 hq, hv, hc⟩ (hnone i)
  | aim d range hd hu hr hrange =>
    refine h.setDomain (fun n hn => absurd hn not_mem_nil) (fun i q hp hreq => absurd hr hreq) ?_
    intro i q hp hv hc
    exact (h.flushed i d q hp hv hc).append
  | post d range answer hd hu hr hrange hwait =>
    refine h.setDomain (fun n hn d' he ht => ?_) ?_ fun i q hp hv hc => (h.flushed i d q hp hv hc).append
    · simp only [map_cons, map_nil, mem_singleton] at hn
      subst hn
      exact he ht.symm
    · intro i q hp hreq hv hw
      obtain ⟨hdata, hmem⟩ := h.covered hs hd hu hp hw
      refine awaits_post hdata hmem ?_
      unfold PostAnswer.Immediate at hwait
      push Not at hwait
      by_cases hin : answer.result = .inProgress
      · exact .inr ⟨hin, hreq⟩
      · exact .inl (hwait hin).1
  | postDone d range answer hd hu hr hrange hnow =>
    rw [held_finished]
    refine h.finished hs hd hu (fun n hn d' he ht => ?_) fun hok i q hp hv hw => ?_
    · simp only [map_cons, map_nil, mem_singleton] at hn
      subst hn
      exact he ht.symm
    · obtain ⟨hdata, hmem⟩ := h.covered hs hd hu hp hw
      exact ⟨d, _, answer, coveredBy_post hdata hmem (.inl hok), .inl (hnow.2.resolve_left (not_not.2 hok))⟩
  | publish slot request c hslot hres =>
    rw [map_nil, append_nil]
    have hopen := hs.reserved_open hslot hres
    refine h.setRequest hs' (fun hc => absurd (hopen.symm.trans hc) (by simp)) fun d q hpl => ?_
    refine hs.behind hopen ?_
    obtain ⟨hi, -, hdom, hq⟩ := place_eq_some.1 hpl
    rw [setRequest_self] at hdom hq
    exact place_eq_some.2 ⟨hi, by simp [hres], hdom, hq⟩
  | publishPending slot hslot hres hf =>
    refine (hnoted slot).setRequest hs' (fun _ => by simp) fun d q hpl => ?_
    refine hs.behind (hs.reserved_open hslot hres) ?_
    obtain ⟨hi, -, hdom, hq⟩ := place_eq_some.1 hpl
    rw [setRequest_self] at hdom hq
    exact place_eq_some.2 ⟨hi, by simp [hres], hdom, hq⟩
  | reinit d peer orderingKey hd hnone =>
    exact h.setDomain (fun n hn => absurd hn not_mem_nil) (fun i q hp => absurd hp (hnone i q))
      fun i q hp => absurd hp (hnone i q)
  | issue slot d dstOff size dstMrIdx comm hslot hres hd hu honce =>
    rw [map_nil, append_nil]
    have hopen := hs.reserved_open hslot hres
    have hwide : Logged ids (log ++ []) (t.setDomain d { t.domains d with
        issuedGetSequence := (t.domains d).issuedGetSequence + 1 }) := by
      refine h.setDomain (fun n hn => absurd hn not_mem_nil) ?_ ?_
      · intro i q hp hr hv hw
        exact (h.awaits i d q hp hr hv hw).append fun n hn => absurd hn not_mem_nil
      · intro i q hp hv hc
        exact (h.flushed i d q hp hv hc).append
    rw [append_nil] at hwide
    refine hwide.setRequest hs' (fun hc => absurd (hopen.symm.trans hc) (by simp)) fun d' q hpl => ?_
    obtain ⟨-, -, hdom, rfl⟩ := place_eq_some.1 hpl
    rw [setRequest_self] at hdom ⊢
    cases hdom
    rw [setDomain_self]
    obtain ⟨-, hf, hi⟩ := hs.marks d hd hu
    exact Nat.lt_succ_of_le (hf.trans hi)
  | remove slot d q hslot hsafe =>
    rw [map_nil, append_nil]
    exact h.remove hs hslot
  | drop slot hslot =>
    rw [map_nil, append_nil]
    refine h.setRequest hs' (fun hc => absurd hc (by simp [requestReset])) fun d q hpl => ?_
    simp [setRequest_place, requestReset] at hpl
  | complete slot d q hslot hq =>
    rw [map_nil, append_nil]
    refine h.setRequest hs' (fun hc => absurd hc (by simp [requestReset])) fun d q hpl => ?_
    simp [setRequest_place, requestReset] at hpl

theorem Logged.moves {ns : List Note} (hm : Moves once safe t t' ns) : Logged ids (log ++ ns.map (Note.rename ids)) t' := by
  induction hm with
  | refl => simpa using h
  | step hms hm ih =>
    rw [map_append, ← append_assoc]
    exact ih.move (hs.moves hms) hm

end

theorem Logged.stepped {s s' : System} (hk : Kept s) (h : Logged s.ids s.log s.transport)
    (hs : Stepped once safe s s') : Logged s'.ids s'.log s'.transport := by
  cases hs with
  | same => exact h
  | reserved i submit peer stagingSlot hi hfree =>
    have hplace := reserved_place hk.sound hi hfree submit peer stagingSlot
    have hnone : ∀ {j d q}, s.transport.place j = some (d, q) → j ≠ i := by
      rintro j d q hp rfl
      exact (place_eq_some.1 hp).2.1 hfree
    refine ⟨?_, ?_, ?_⟩
    · intro j hj hc
      have hne : j ≠ i := by
        rintro rfl
        rw [setRequest_self, (hk.sound.staged j hi).free hfree] at hc
        exact absurd hc (by simp [requestReset])
      dsimp only at hc ⊢
      rw [setRequest_ne _ hne] at hc
      rw [update_of_ne hne]
      exact h.data j hj hc
    · intro j d q hp hr hv hw
      dsimp only at hp ⊢
      rw [hplace] at hp
      rw [update_of_ne (hnone hp)]
      exact h.awaits j d q hp hr hv hw
    · intro j d q hp hv hc
      dsimp only at hp hc ⊢
      rw [hplace] at hp
      rw [setRequest_ne _ (hnone hp)] at hc
      rw [update_of_ne (hnone hp)]
      exact h.flushed j d q hp hv hc
  | moved t ns ready hm hready => exact h.moves hk.sound hm

end Logged

/-- **A GET is reported visible only after a flush that covers it.** In every run, when a progress call reports a request
that requires a GET flush ready without an error, a flush was posted after its data was complete, with a target that
covered it, was taken, and was tested done if it left a request. -/
theorem get_flushed_before_visible {capacity : UInt32} {generation orderingKey : UInt64} {groups : Nat → ReleaseGroup}
    {t : Transport} (hinit : Transport.init capacity generation orderingKey groups = .ok t) {s : System}
    (h : Reach System.step (fun _ _ => True) (System.start t) s) {slot : Nat} (hslot : slot < s.transport.capacity)
    (hflush : (s.transport.requests slot).requiresGetFlush = true) (data flush : TestAnswer) (post : PostAnswer)
    (hok : (s.transport.progressRequest slot data flush post).result = .success)
    (hready : (s.transport.progressRequest slot data flush post).ready = true)
    (hres : (s.transport.progressRequest slot data flush post).completionResult = .success) :
    Flushed (s.progress slot data flush post).log (s.ids slot) := by
  have hkept : Kept s ∧ Logged s.ids s.log s.transport := by
    obtain ⟨hr, hd⟩ := init_eq hinit
    refine h.invariant (I := fun s => Kept s ∧ Logged s.ids s.log s.transport) ⟨kept_start (sound_init hr hd), ?_⟩ ?_
    · refine ⟨fun i _ hc => ?_, fun i d q hp => ?_, fun i d q hp => ?_⟩
      · simp [System.start, hr, requestReset] at hc
      · simp [System.start, place, hr, requestReset] at hp
      · simp [System.start, place, hr, requestReset] at hp
    · intro s s' a hk _ hstep
      have hs : Stepped False False s s' := System.step_cases hk.1 hstep (fun hf => hf.elim) (fun hf => hf.elim)
      exact ⟨hk.1.stepped hs, hk.2.stepped hk.1 hs⟩
  have hposted : (s.transport.requests slot).state = .posted := by
    by_contra hne
    unfold progressRequest at hok
    rw [if_pos hne] at hok
    exact absurd hok (by simp)
  obtain ⟨hm, hend⟩ := progressRequest_moves False False hkept.1.sound hslot hposted data flush post
  rcases hend with ⟨-, hnot, -⟩ | ⟨-, hnot⟩ | ⟨d, q, hp, ⟨-, hvis, hcr⟩ | ⟨hinv, -⟩⟩
  · exact absurd (hflush.symm.trans hnot) (by simp)
  · exact absurd (hready.symm.trans hnot) (by simp)
  · refine (hkept.2.moves hkept.1.sound hm).flushed slot d q hp (hvis.1 hready) ?_
    rw [← hcr]
    exact hres
  · exact absurd (hok.symm.trans hinv) (by simp)

def flushPosted (answer : PostAnswer) : List Act :=
  [.reserve ⟨0, 0, 1, 1, 0⟩ 0 (-1), .require 0 0 0 8 1, .publishPending 0,
    .progress 0 ⟨.success, true⟩ ⟨.success, false⟩ answer]

theorem get_flushed_before_visible_one :
    ∃ s, exec System.step (System.start twoSlots) (flushPosted ⟨.success, some 7⟩) = some s ∧
      Flushed (s.progress 0 ⟨.success, true⟩ ⟨.success, true⟩ ⟨.success, none⟩).log (s.ids 0) := by
  have hsome : ((exec System.step (System.start twoSlots) (flushPosted ⟨.success, some 7⟩)).map fun s =>
      (s.transport.capacity, (s.transport.requests 0).requiresGetFlush,
        (s.transport.progressRequest 0 ⟨.success, true⟩ ⟨.success, true⟩ ⟨.success, none⟩).result,
        (s.transport.progressRequest 0 ⟨.success, true⟩ ⟨.success, true⟩ ⟨.success, none⟩).ready,
        (s.transport.progressRequest 0 ⟨.success, true⟩ ⟨.success, true⟩ ⟨.success, none⟩).completionResult)) =
      some (2, true, .success, true, .success) := by decide
  obtain ⟨s, hs, he⟩ := Option.map_eq_some_iff.1 hsome
  simp only [Prod.mk.injEq] at he
  obtain ⟨hcap, hflush, hok, hready, hres⟩ := he
  refine ⟨s, hs, ?_⟩
  exact get_flushed_before_visible (show Transport.init 2 1 0 _ = .ok twoSlots from rfl)
    (Reach.of_exec (fun _ _ _ => trivial) hs) (by rw [hcap]; decide) hflush _ _ _ hok hready hres

/-- The callback answers that the flush is in progress and leaves a request: no posted flush ever returned success. -/
theorem get_visible_in_progress :
    ∃ t s, Transport.init 2 1 0 (fun _ => ⟨0, 0, .opened, 0, 0, false, .success⟩) = .ok t ∧
      Reach System.step (fun _ _ => True) (System.start t) s ∧
      (s.transport.requests 0).requiresGetFlush = true ∧
      (s.transport.progressRequest 0 ⟨.success, true⟩ ⟨.success, true⟩ ⟨.success, none⟩).result = .success ∧
      (s.transport.progressRequest 0 ⟨.success, true⟩ ⟨.success, true⟩ ⟨.success, none⟩).ready = true ∧
      (s.transport.progressRequest 0 ⟨.success, true⟩ ⟨.success, true⟩ ⟨.success, none⟩).completionResult = .success ∧
      (s.progress 0 ⟨.success, true⟩ ⟨.success, true⟩ ⟨.success, none⟩).log.all (fun n =>
        match n with
        | .post _ _ answer => answer.result != .success
        | _ => true) = true := by
  have hsome : ((exec System.step (System.start twoSlots) (flushPosted ⟨.inProgress, some 7⟩)).map fun s =>
      ((s.transport.requests 0).requiresGetFlush,
        (s.transport.progressRequest 0 ⟨.success, true⟩ ⟨.success, true⟩ ⟨.success, none⟩).result,
        (s.transport.progressRequest 0 ⟨.success, true⟩ ⟨.success, true⟩ ⟨.success, none⟩).ready,
        (s.transport.progressRequest 0 ⟨.success, true⟩ ⟨.success, true⟩ ⟨.success, none⟩).completionResult,
        (s.progress 0 ⟨.success, true⟩ ⟨.success, true⟩ ⟨.success, none⟩).log.all (fun n =>
          match n with
          | .post _ _ answer => answer.result != .success
          | _ => true))) = some (true, .success, true, .success, true) := by decide
  obtain ⟨s, hs, he⟩ := Option.map_eq_some_iff.1 hsome
  simp only [Prod.mk.injEq] at he
  exact ⟨twoSlots, s, rfl, Reach.of_exec (fun _ _ _ => trivial) hs, he⟩

end FlagCX.KernelProxy
