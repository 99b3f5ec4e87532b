import FlagCX.KernelProxy.Moves
import FlagCX.Lib.Guarded

/-!
# Runs of the kernel proxy

`System` is the transport with the history its claims are about: which slots a progress call reported ready, the number
of the reservation that holds a slot, and the log of data completions, flush tests and posted flushes.
-/

namespace FlagCX.KernelProxy
open List Function Option

open Net Lib Transport

/-! ## Runs -/

def Note.rename (ids : Nat → Nat) : Note → Note
  | .data slot => .data (ids slot)
  | .test d answer => .test d answer
  | .post d covered answer => .post d (covered.map ids) answer

/-- The transport with its history. Reservations are numbered; the log names them by their number. -/
structure System where
  transport : Transport
  ready : Nat → Bool
  ids : Nat → Nat
  nextId : Nat
  log : List Note

inductive Act where
  | trackNext (flags : UInt32)
  | reserve (submit : SubmitContext) (peer stagingSlot : Int)
  | require (slot : Nat) (dstMrIdx : Int) (dstOff size flushRecvComm : Nat)
  | publish (slot request : Nat) (completionResult : Result)
  | publishPending (slot : Nat)
  | progress (slot : Nat) (data flush : TestAnswer) (post : PostAnswer)
  | complete (slot : Nat) (result : Result)
  | cancel (slot : Nat)
  | abort (slot : Nat)

namespace System

def start (t : Transport) : System := ⟨t, fun _ => false, fun _ => 0, 0, []⟩

def note (s : System) (t : Transport) (ns : List Note) : System :=
  { s with transport := t, log := s.log ++ ns.map (Note.rename s.ids) }

def reserve (s : System) (submit : SubmitContext) (peer stagingSlot : Int) : System :=
  let out := s.transport.reserveRequest submit peer stagingSlot
  match out.2.2 with
  | none => { s with transport := out.2.1 }
  | some slot =>
    { s with
      transport := out.2.1, ready := update s.ready slot false, ids := update s.ids slot s.nextId
      nextId := s.nextId + 1 }

def progress (s : System) (slot : Nat) (data flush : TestAnswer) (post : PostAnswer) : System :=
  let p := s.transport.progressRequest slot data flush post
  { s.note p.transport (p.calls.flatMap Callback.notes) with
    ready := if p.result = .success ∧ p.ready = true then update s.ready slot true else s.ready }

/-- A call on a slot outside the table is refused; a request is completed only after it was reported ready. -/
def step (s : System) : Act → Option System
  | .trackNext flags => some (s.note (s.transport.trackNext flags).2 [])
  | .reserve submit peer stagingSlot => some (s.reserve submit peer stagingSlot)
  | .require slot dstMrIdx dstOff size comm =>
    if slot < s.transport.capacity then
      some (s.note (s.transport.requireGetFlush slot dstMrIdx dstOff size comm).2 [])
    else some s
  | .publish slot request result =>
    if slot < s.transport.capacity then some (s.note (s.transport.publishRequest slot request result).2 [])
    else some s
  | .publishPending slot =>
    if slot < s.transport.capacity then
      let out := s.transport.publishGetFlushPending slot
      some (s.note out.2 (if out.1 = .success then [.data slot] else []))
    else some s
  | .progress slot data flush post =>
    if slot < s.transport.capacity then some (s.progress slot data flush post) else some s
  | .complete slot result =>
    if slot < s.transport.capacity then
      if s.ready slot then some (s.note (s.transport.completeRequest slot result).2 []) else none
    else some s
  | .cancel slot =>
    if slot < s.transport.capacity then some (s.note (s.transport.cancelRequest slot).2 []) else some s
  | .abort slot =>
    if slot < s.transport.capacity then some (s.note (s.transport.abortRequest slot).2 []) else some s

end System

/-! ## Places and watermarks -/

variable {slot d i : Nat}

section Shape
variable {once safe : Prop} {t t' : Transport} {ns : List Note}

/-- What a move does to the places and to the two ends of the numbering. -/
inductive Shift (once : Prop) (t t' : Transport) : Prop
  | still (hp : t'.place = t.place) (hd : ∀ d, (t'.domains d).inUse = (t.domains d).inUse ∧
        (t'.domains d).issuedGetSequence = (t.domains d).issuedGetSequence ∧
        (t.domains d).visibleGetSequence ≤ (t'.domains d).visibleGetSequence)
  | reinit (d : Nat) (domain : Domain) (hnone : ∀ i s, t.place i ≠ some (d, s)) (ht : t' = t.setDomain d domain)
      (hzero : domain.issuedGetSequence = 0)
  | issue (slot d : Nat) (hres : (t.requests slot).state = .reserved) (honce : once → t.place slot = none)
      (hp : ∀ i, t'.place i = if i = slot then some (d, (t.domains d).issuedGetSequence + 1) else t.place i)
      (hd : t'.domains = (t.setDomain d { t.domains d with
        issuedGetSequence := (t.domains d).issuedGetSequence + 1 }).domains)
  | removed (slot d q : Nat) (hslot : t.place slot = some (d, q)) (ht : t' = t.removed slot d q)
  | freed (slot : Nat) (hvis : ∀ d s, t.place slot = some (d, s) → s ≤ (t.domains d).visibleGetSequence)
      (hp : ∀ i, t'.place i = if i = slot then none else t.place i) (hd : t'.domains = t.domains)

theorem Shift.same {r : Request} (hd : r.getVisibilityDomain = (t.requests slot).getVisibilityDomain)
    (hs : r.getSequence = (t.requests slot).getSequence)
    (hl : r.state = .free ↔ (t.requests slot).state = .free) : Shift once t (t.setRequest slot r) := by
  refine .still ?_ fun _ => ⟨rfl, rfl, le_rfl⟩
  funext i
  rw [setRequest_place]
  split_ifs with hi hlive
  · simp only [ne_eq, hl] at hlive
    simp [place, hi, hlive, hd, hs]
  · simp only [ne_eq, hl] at hlive
    simp [place, hi, hlive]
  · rfl

theorem Shift.marks {domain : Domain} (hp : t'.place = t.place)
    (hd : t'.domains = (t.setDomain d domain).domains) (hu : domain.inUse = (t.domains d).inUse)
    (hi : domain.issuedGetSequence = (t.domains d).issuedGetSequence)
    (hv : (t.domains d).visibleGetSequence ≤ domain.visibleGetSequence) : Shift once t t' := by
  refine .still hp fun d' => ?_
  rw [hd]
  by_cases he : d' = d
  · subst he
    rw [setDomain_self]
    exact ⟨hu, hi, hv⟩
  · rw [setDomain_ne t he]
    exact ⟨rfl, rfl, le_rfl⟩

theorem Sound.finished_marks (h : Sound t) (hd : d < t.capacity) (hu : (t.domains d).inUse = true)
    (result : Result) : Shift once t (t.finished d result) :=
  .marks (finished_place t d result) (finished_domains t d result) rfl rfl (h.marks d hd hu).1

theorem Move.shift (h : Sound t) (hm : Move once safe t t' ns) : Shift once t t' := by
  cases hm with
  | keep hr hd hc =>
    refine .still ?_ fun d => by rw [hd]; exact ⟨rfl, rfl, le_rfl⟩
    funext i
    simp only [place, hr, hc]
  | dataDone slot c hp hf => exact .same rfl rfl Iff.rfl
  | dataComplete slot c hslot hp hs hf => exact .same rfl rfl Iff.rfl
  | flushWait d answer => exact .still rfl fun _ => ⟨rfl, rfl, le_rfl⟩
  | flushDone d answer hd hu hr ha => exact h.finished_marks hd hu _
  | advance d c hd hu hlow hhigh hdata | aim d range hd hu hr hrange | post d range answer hd hu hr hrange hwait => exact .marks rfl rfl rfl rfl le_rfl
  | skip d hd hu hr ht hnone =>
    obtain ⟨hv, hf, -⟩ := h.marks d hd hu
    exact .marks rfl rfl rfl rfl (hv.trans hf)
  | postDone d range answer hd hu hr hrange hnow =>
    have hdom : ((t.held d answer.request).finished d answer.result).domains = (t.setDomain d { t.domains d with
        flushRequest := none, flushResult := answer.result
        visibleGetSequence := (t.domains d).flushTargetGetSequence }).domains := by
      rw [finished_domains]
      simp [held, setDomain]
    exact .marks (finished_place _ d _) hdom rfl rfl (h.marks d hd hu).1
  | publish slot request c hslot hres => exact .same rfl rfl (by simp [hres])
  | publishPending slot hslot hres hf => exact .same rfl rfl (by simp [hres])
  | reinit d peer orderingKey hd hnone => exact .reinit d _ hnone rfl rfl
  | issue slot d dstOff size dstMrIdx comm hslot hres hd hu honce =>
    refine .issue slot d hres honce (fun i => ?_) rfl
    rw [setRequest_place]
    simp [hslot, hres]
  | remove slot d q hslot hsafe => exact .removed slot d q hslot rfl
  | drop slot hslot =>
    refine .freed slot (fun d s hs => by rw [hslot] at hs; exact absurd hs (by simp)) (fun i => ?_) rfl
    rw [setRequest_place]
    simp [requestReset]
  | complete slot d s hslot hs =>
    refine .freed slot (fun d' s' hs' => by rw [hslot] at hs'; cases hs'; exact hs) (fun i => ?_) rfl
    rw [setRequest_place]
    simp [requestReset]

/-! ## What was reported ready stays visible -/

/-- The request in the slot, if it belongs to a domain, is visible. -/
def VisibleAt (t : Transport) (i : Nat) : Prop := ∀ d s, t.place i = some (d, s) → s ≤ (t.domains d).visibleGetSequence

theorem Shift.visibleAt (h : Sound t) (hs : Shift once t t') (hv : VisibleAt t i)
    (hres : (t.requests i).state ≠ .reserved) : VisibleAt t' i := by
  intro d s hp
  cases hs with
  | still hpl hd =>
    rw [hpl] at hp
    exact (hv d s hp).trans (hd d).2.2
  | reinit d' domain hnone ht hzero =>
    subst ht
    have hne : d ≠ d' := by
      rintro rfl
      exact hnone i s hp
    rw [setDomain_ne t hne]
    exact hv d s hp
  | issue slot d' hslot honce hpl hd =>
    have hi : i ≠ slot := by
      rintro rfl
      exact hres hslot
    rw [hpl, if_neg hi] at hp
    have hsame : (t'.domains d).visibleGetSequence = (t.domains d).visibleGetSequence := by
      rw [hd]
      by_cases he : d = d'
      · subst he
        rw [setDomain_self]
      · rw [setDomain_ne t he]
    rw [hsame]
    exact hv d s hp
  | removed slot d' q hslot ht =>
    subst ht
    obtain ⟨hi, s₀, hs₀, rfl⟩ := (removed_place h hslot i d s).1 hp
    have hle := hv d s₀ hs₀
    rw [removed_domain]
    by_cases he : d = d'
    · subst he
      rw [if_pos rfl, if_pos rfl]
      exact dropNumber_mono q hle
    · rw [if_neg he, if_neg he]
      exact hle
  | freed slot hvis hpl hd =>
    rw [hpl] at hp
    split_ifs at hp
    rw [hd]
    exact hv d s hp

theorem reserved_setRequest {r : Request} (hr : ((t.setRequest slot r).requests i).state = .reserved)
    (hold : r.state = .reserved → (t.requests slot).state = .reserved) : (t.requests i).state = .reserved := by
  by_cases hi : i = slot
  · subst hi
    rw [setRequest_self] at hr
    exact hold hr
  · rwa [setRequest_ne t hi] at hr

theorem finished_state (t : Transport) (d : Nat) (result : Result) (i : Nat) :
    ((t.finished d result).requests i).state = (t.requests i).state := by
  unfold finished failCovered
  split_ifs
  · dsimp only
    split_ifs <;> rfl
  · rfl

theorem Move.reserved (hm : Move once safe t t' ns) (hr : (t'.requests i).state = .reserved) :
    (t.requests i).state = .reserved := by
  cases hm with
  | keep hreq hd hc => rwa [hreq] at hr
  | dataDone slot c hp hf => exact reserved_setRequest hr id
  | dataComplete slot c hslot hp hs hf => exact reserved_setRequest hr id
  | flushWait d answer => exact hr
  | flushDone d answer hd hu hreq ha => rwa [finished_state] at hr
  | advance d c hd hu hlow hhigh hdata => exact hr
  | skip d hd hu hreq ht hnone => exact hr
  | aim d range hd hu hreq hrange => exact hr
  | post d range answer hd hu hreq hrange hwait => exact hr
  | postDone d range answer hd hu hreq hrange hnow => rwa [finished_state] at hr
  | publish slot request c hslot hres | publishPending slot hslot hres hf
  | issue slot d dstOff size dstMrIdx comm hslot hres hd hu honce => exact reserved_setRequest hr fun _ => hres
  | reinit d peer orderingKey hd hnone => exact hr
  | remove slot d q hslot hsafe =>
    by_cases hi : i = slot
    · rw [hi, Transport.removed, setRequest_self] at hr
      exact absurd hr (by simp [requestReset])
    · rw [Transport.removed, setRequest_ne _ hi] at hr
      dsimp only [setDomain_requests] at hr
      split_ifs at hr
      · rwa [(renumber_keeps d q _).1] at hr
      · exact hr
  | drop slot hslot | complete slot d s hslot hs => exact reserved_setRequest hr fun hst => absurd hst (by simp [requestReset])

end Shape

/-! ## What every run keeps -/

/-- The transport is sound, and what was reported ready is visible. -/
structure Kept (s : System) : Prop where
  sound : Sound s.transport
  ready : ∀ i, s.ready i = true → (s.transport.requests i).state ≠ .reserved ∧ VisibleAt s.transport i

def FlushedOnce (s : System) : Act → Prop
  | .require slot _ _ _ _ =>
    (s.transport.requests slot).state = .reserved → (s.transport.requests slot).requiresGetFlush = false
  | _ => True

/-- No abort takes the last request that has not failed out of a range whose flush is to be retried, unless the range is
left empty. -/
def SafeAbort (s : System) : Act → Prop
  | .abort slot => ∀ d q, s.transport.place slot = some (d, q) → s.transport.SafeRemoval slot d q
  | _ => True

/-- A step is a reservation, or moves that are noted; it may report more requests as ready. -/
inductive Stepped (once safe : Prop) (s : System) : System → Prop
  | same : Stepped once safe s s
  | reserved (i : Nat) (submit : SubmitContext) (peer stagingSlot : Int) (hi : i < s.transport.capacity)
      (hfree : (s.transport.requests i).state = .free) :
      Stepped once safe s { s with
        transport := s.transport.setRequest i { s.transport.requests i with
          submit := submit, peer := peer, stagingSlot := stagingSlot, state := .reserved }
        ready := update s.ready i false, ids := update s.ids i s.nextId, nextId := s.nextId + 1 }
  | moved (t : Transport) (ns : List Note) (ready : Nat → Bool) (hm : Moves once safe s.transport t ns)
      (hready : ∀ i, ready i = true → s.ready i = true ∨ ((t.requests i).state ≠ .reserved ∧ VisibleAt t i)) :
      Stepped once safe s { s.note t ns with ready := ready }

section Step
variable {once safe : Prop} {s s' : System} {t : Transport} {ns : List Note}

theorem Stepped.ofMoves (hm : Moves once safe s.transport t ns) :
    Stepped once safe s (s.note t ns) := .moved t ns s.ready hm fun _ hi => .inl hi

theorem stepped_reserve (s : System) (submit : SubmitContext) (peer stagingSlot : Int) :
    Stepped once safe s (s.reserve submit peer stagingSlot) := by
  unfold System.reserve
  dsimp only
  rcases reserveRequest_cases s.transport submit peer stagingSlot with he | ⟨i, hi, hfree, he⟩
  · rw [he]
    exact .same
  · rw [he]
    exact .reserved i submit peer stagingSlot hi hfree

theorem Moves.reserved {t' : Transport} (hm : Moves once safe t t' ns)
    (hr : (t'.requests i).state = .reserved) : (t.requests i).state = .reserved := by
  induction hm with
  | refl => exact hr
  | step _ hm ih => exact ih (hm.reserved hr)

theorem stepped_progress (h : Kept s) (hslot : slot < s.transport.capacity) (data flush : TestAnswer)
    (post : PostAnswer) : Stepped once safe s (s.progress slot data flush post) := by
  unfold System.progress
  by_cases hposted : (s.transport.requests slot).state = .posted
  swap
  · have hfail : s.transport.progressRequest slot data flush post = ⟨.invalidArgument, false, .success, s.transport, []⟩ := by
      unfold progressRequest
      rw [if_pos hposted]
    rw [hfail]
    exact .moved s.transport [] s.ready .refl fun _ hi => .inl hi
  obtain ⟨hm, hend⟩ := progressRequest_moves once safe h.sound hslot hposted data flush post
  refine .moved _ _ _ hm fun i hi => ?_
  split_ifs at hi with hr
  swap
  · exact .inl hi
  by_cases he : i = slot
  swap
  · rw [update_of_ne he] at hi
    exact .inl hi
  subst he
  refine .inr ⟨fun hres => ?_, fun d q hp => ?_⟩
  · exact absurd (hposted.symm.trans (hm.reserved hres)) (by simp)
  · rcases hend with ⟨-, -, hnone⟩ | ⟨-, hnot⟩ | ⟨d', q', hpl, ⟨-, hvis, -⟩ | ⟨hinv, -⟩⟩
    · rw [hnone] at hp
      exact absurd hp (by simp)
    · rw [hnot] at hr
      exact absurd hr.2 (by simp)
    · rw [hpl] at hp
      cases hp
      exact hvis.1 hr.2
    · rw [hinv] at hr
      exact absurd hr.1 (by simp)

/-- **What a step does.** -/
theorem System.step_cases (h : Kept s) {a : Act} (hstep : s.step a = some s') (honce : once → FlushedOnce s a)
    (hsafe : safe → SafeAbort s a) : Stepped once safe s s' := by
  cases a with
  | trackNext flags =>
    cases hstep
    exact .ofMoves (trackNext_moves once safe _ flags)
  | reserve submit peer stagingSlot =>
    cases hstep
    exact stepped_reserve s submit peer stagingSlot
  | require slot dstMrIdx dstOff size comm =>
    rw [System.step] at hstep
    split_ifs at hstep with hslot
    · cases hstep
      refine .ofMoves (requireGetFlush_moves once safe h.sound hslot dstMrIdx dstOff size comm fun ho hres => ?_)
      have hnone : (s.transport.requests slot).getVisibilityDomain = none := by
        by_contra hne
        exact absurd ((honce ho hres).symm.trans ((h.sound.staged slot hslot).flush.2 hne)) (by simp)
      simp [place, hnone]
    · cases hstep
      exact .same
  | publish slot request result =>
    rw [System.step] at hstep
    split_ifs at hstep with hslot
    · cases hstep
      exact .ofMoves (publishRequest_moves once safe hslot request result)
    · cases hstep
      exact .same
  | publishPending slot =>
    rw [System.step] at hstep
    split_ifs at hstep with hslot
    · cases hstep
      exact .ofMoves (publishGetFlushPending_moves once safe hslot)
    · cases hstep
      exact .same
  | progress slot data flush post =>
    rw [System.step] at hstep
    split_ifs at hstep with hslot
    · cases hstep
      exact stepped_progress h hslot data flush post
    · cases hstep
      exact .same
  | complete slot result =>
    rw [System.step] at hstep
    split_ifs at hstep with hslot hready
    · cases hstep
      exact .ofMoves (completeRequest_moves once safe (h.ready slot hready).2 result)
    · cases hstep
      exact .same
  | cancel slot =>
    rw [System.step] at hstep
    split_ifs at hstep with hslot
    · cases hstep
      exact .ofMoves (cancelRequest_moves once safe h.sound hslot)
    · cases hstep
      exact .same
  | abort slot =>
    rw [System.step] at hstep
    split_ifs at hstep with hslot
    · cases hstep
      exact .ofMoves (abortRequest_moves once safe h.sound hslot fun d q hp hs => hsafe hs d q hp)
    · cases hstep
      exact .same

theorem Moves.visibleAt {t' : Transport} (h : Sound t) (hm : Moves once safe t t' ns)
    (hv : VisibleAt t i) (hres : (t.requests i).state ≠ .reserved) : VisibleAt t' i := by
  induction hm with
  | refl => exact hv
  | step hms hm ih =>
    refine (hm.shift (h.moves hms)).visibleAt (h.moves hms) ih fun hr => hres ?_
    exact hms.reserved hr

theorem reserved_place (h : Sound t) (hi : i < t.capacity) (hfree : (t.requests i).state = .free)
    (submit : SubmitContext) (peer stagingSlot : Int) :
    (t.setRequest i { t.requests i with
      submit := submit, peer := peer, stagingSlot := stagingSlot, state := .reserved }).place = t.place := by
  funext j
  rw [setRequest_place]
  by_cases hj : j = i
  · subst hj
    simp [place, (h.staged j hi).free hfree, requestReset]
  · rw [if_neg hj]

theorem Kept.stepped (h : Kept s) (hs : Stepped once safe s s') : Kept s' := by
  cases hs with
  | same => exact h
  | reserved i submit peer stagingSlot hi hfree =>
    refine ⟨h.sound.reserve submit peer stagingSlot hi hfree, fun j hj => ?_⟩
    dsimp only at hj ⊢
    have hne : j ≠ i := by
      rintro rfl
      exact absurd hj (by simp)
    rw [update_of_ne hne] at hj
    obtain ⟨hres, hv⟩ := h.ready j hj
    refine ⟨by rw [setRequest_ne _ hne]; exact hres, fun d q hp => ?_⟩
    rw [reserved_place h.sound hi hfree] at hp
    exact hv d q hp
  | moved t ns ready hm hready =>
    refine ⟨h.sound.moves hm, fun i hi => ?_⟩
    rcases hready i hi with hold | hnew
    · obtain ⟨hres, hv⟩ := h.ready i hold
      exact ⟨fun hr => hres (hm.reserved hr), hm.visibleAt h.sound hv hres⟩
    · exact hnew

theorem kept_start (h : Sound t) : Kept (System.start t) := ⟨h, fun i hi => absurd hi (by simp [System.start])⟩

end Step

/-! ## The sequences that are not yet visible -/

/-- Every sequence that was issued and is not visible belongs to a request. -/
def Full (t : Transport) : Prop :=
  ∀ d < t.capacity, (t.domains d).inUse = true → ∀ q, (t.domains d).visibleGetSequence < q →
    q ≤ (t.domains d).issuedGetSequence → ∃ i, t.place i = some (d, q)

section Full
variable {safe : Prop} {t t' : Transport} {ns : List Note} {s s' : System}

theorem Move.capacity {once : Prop} (hm : Move once safe t t' ns) : t'.capacity = t.capacity := by
  cases hm with
  | keep hr hd hc => exact hc
  | flushDone d answer hd hu hr ha => exact finished_capacity ..
  | postDone d range answer hd hu hr hrange hnow => exact finished_capacity ..
  | _ => rfl

theorem Full.move (h : Sound t) (hf : Full t) (hm : Move True safe t t' ns) : Full t' := by
  intro d hd hu q hv hq
  rw [hm.capacity] at hd
  cases hm.shift h with
  | still hp hdom =>
    obtain ⟨hin, hiss, hvis⟩ := hdom d
    rw [hin] at hu
    rw [hiss] at hq
    rw [hp]
    exact hf d hd hu q (hvis.trans_lt hv) hq
  | reinit d' domain hnone ht hzero =>
    subst ht
    by_cases he : d = d'
    · subst he
      rw [setDomain_self, hzero] at hq
      omega
    · rw [setDomain_ne t he] at hu hv hq
      exact hf d hd hu q hv hq
  | issue slot d' hres honce hp hdom =>
    rw [hdom] at hu hv hq
    have hold : ∀ {i}, t.place i = some (d, q) → t'.place i = some (d, q) := by
      intro i hi
      have hne : i ≠ slot := by
        rintro rfl
        rw [honce trivial] at hi
        exact absurd hi (by simp)
      rw [hp, if_neg hne]
      exact hi
    by_cases he : d = d'
    · subst he
      rw [setDomain_self] at hu hv hq
      by_cases hlast : q = (t.domains d).issuedGetSequence + 1
      · exact ⟨slot, by rw [hp, if_pos rfl, hlast]⟩
      · have hq' : q ≤ (t.domains d).issuedGetSequence := by
          dsimp only at hq
          omega
        obtain ⟨i, hi⟩ := hf d hd hu q hv hq'
        exact ⟨i, hold hi⟩
    · rw [setDomain_ne t he] at hu hv hq
      obtain ⟨i, hi⟩ := hf d hd hu q hv hq
      exact ⟨i, hold hi⟩
  | removed slot d' q' hslot ht =>
    subst ht
    obtain ⟨-, -, hpos, -⟩ := h.home slot d' q' hslot
    rw [removed_domain] at hu hv hq
    by_cases he : d = d'
    · subst he
      rw [if_pos rfl] at hu hv hq
      obtain ⟨n, hn, rfl⟩ := exists_dropNumber q' q
      have hvn : (t.domains d).visibleGetSequence < n := by
        rw [← not_le] at hv ⊢
        exact fun hle => hv ((dropNumber_le hpos hn).2 hle)
      obtain ⟨i, hi⟩ := hf d hd hu n hvn ((dropNumber_le hpos hn).1 hq)
      refine ⟨i, (removed_place h hslot i d _).2 ⟨?_, n, hi, by rw [if_pos rfl]⟩⟩
      rintro rfl
      rw [hslot] at hi
      cases hi
      exact hn rfl
    · rw [if_neg he] at hu hv hq
      obtain ⟨i, hi⟩ := hf d hd hu q hv hq
      refine ⟨i, (removed_place h hslot i d _).2 ⟨?_, q, hi, by rw [if_neg he]⟩⟩
      rintro rfl
      rw [hslot] at hi
      cases hi
      exact he rfl
  | freed slot hvis hp hdom =>
    rw [hdom] at hu hv hq
    obtain ⟨i, hi⟩ := hf d hd hu q hv hq
    refine ⟨i, ?_⟩
    have hne : i ≠ slot := by
      rintro rfl
      exact absurd (hvis d q hi) (not_le.2 hv)
    rw [hp, if_neg hne]
    exact hi

theorem Full.moves (h : Sound t) (hf : Full t) (hm : Moves True safe t t' ns) : Full t' := by
  induction hm with
  | refl => exact hf
  | step hms hm ih => exact ih.move (h.moves hms) hm

theorem Full.stepped (h : Kept s) (hf : Full s.transport) (hs : Stepped True safe s s') : Full s'.transport := by
  cases hs with
  | same => exact hf
  | reserved i submit peer stagingSlot hi hfree =>
    intro d hd hu q hv hq
    rw [reserved_place h.sound hi hfree]
    exact hf d hd hu q hv hq
  | moved t ns ready hm hready => exact hf.moves h.sound hm

end Full

/-- **The watermarks of a GET domain are in order, and the live requests carry the sequences that are not yet visible.**
For any interleaving of the calls in which no reservation requires its flush twice. -/
theorem get_marks_ordered {capacity : UInt32} {generation orderingKey : UInt64} {groups : Nat → ReleaseGroup}
    {t : Transport} (hinit : Transport.init capacity generation orderingKey groups = .ok t) {s : System}
    (h : Reach System.step FlushedOnce (System.start t) s) :
    ∀ d < s.transport.capacity, (s.transport.domains d).inUse = true →
      (s.transport.domains d).visibleGetSequence ≤ (s.transport.domains d).flushTargetGetSequence ∧
      (s.transport.domains d).flushTargetGetSequence ≤ (s.transport.domains d).dataCompletedGetSequence ∧
      (s.transport.domains d).dataCompletedGetSequence ≤ (s.transport.domains d).issuedGetSequence ∧
      ∀ q, (s.transport.domains d).visibleGetSequence < q →
        (q ≤ (s.transport.domains d).issuedGetSequence ↔ ∃ i, s.transport.place i = some (d, q)) ∧
        ∀ i j, s.transport.place i = some (d, q) → s.transport.place j = some (d, q) → i = j := by
  have hkept : Kept s ∧ Full s.transport := by
    obtain ⟨hr, hd⟩ := init_eq hinit
    refine h.invariant (I := fun s => Kept s ∧ Full s.transport) ⟨kept_start (sound_init hr hd), ?_⟩ ?_
    · intro d _ hu
      simp [System.start, hd, Domain.unused] at hu
    · intro s s' a hk hok hstep
      have hs : Stepped True False s s' := System.step_cases hk.1 hstep (fun _ => hok) (fun hf => hf.elim)
      exact ⟨hk.1.stepped hs, hk.2.stepped hk.1 hs⟩
  intro d hd hu
  obtain ⟨hv, hf, hi⟩ := hkept.1.sound.marks d hd hu
  refine ⟨hv, hf, hi, fun q hq => ⟨⟨hkept.2 d hd hu q hq, ?_⟩, fun i j => hkept.1.sound.distinct i j d q⟩⟩
  rintro ⟨i, hp⟩
  exact (hkept.1.sound.home i d q hp).2.2.2

def twoSlots : Transport :=
  { scoreboard := ⟨⟨fun _ => completionEntryReset, 2, 0, 1, 1, .success⟩, fun _ => ⟨0, 0, .opened, 0, 0, false, .success⟩⟩
    requests := fun _ => requestReset, domains := fun _ => Domain.unused, capacity := 2, nativeInflight := 0
    nextSequence := 1, generation := 1, orderingKey := 0 }

/-- Two GETs of one peer, the first failed, the second with its data; the flush they share could not be posted yet. -/
def retryPending : List Act :=
  [.reserve ⟨0, 0, 1, 1, 0⟩ 0 (-1), .require 0 0 0 8 1, .publish 0 1 .success,
    .reserve ⟨0, 0, 1, 2, 0⟩ 0 (-1), .require 1 0 0 8 1, .publish 1 2 .success,
    .progress 1 ⟨.success, true⟩ ⟨.success, false⟩ ⟨.inProgress, none⟩,
    .progress 0 ⟨.remoteError, true⟩ ⟨.success, false⟩ ⟨.inProgress, none⟩]

def checkOnce (s : System) : Act → Bool
  | .require slot _ _ _ _ => !(s.transport.requests slot).requiresGetFlush
  | _ => true

theorem get_marks_ordered_retry :
    ∃ s, Reach System.step FlushedOnce (System.start twoSlots) s ∧ (s.transport.domains 0).flushTargetGetSequence = 2 ∧
      2 ≤ (s.transport.domains 0).dataCompletedGetSequence ∧ ∃ i, s.transport.place i = some (0, 2) := by
  have hsome : ((exec (fun s a => if checkOnce s a then System.step s a else none) (System.start twoSlots)
      retryPending).map fun s => ((s.transport.domains 0).inUse, s.transport.capacity,
        (s.transport.domains 0).visibleGetSequence, (s.transport.domains 0).flushTargetGetSequence)) =
      some (true, 2, 0, 2) := by decide
  obtain ⟨s, hs, he⟩ := map_eq_some_iff.1 hsome
  simp only [Prod.mk.injEq] at he
  obtain ⟨hu, hcap, hvis, htarget⟩ := he
  have hreach : Reach System.step FlushedOnce (System.start twoSlots) s := by
    refine Reach.of_checked (fun s a hc => ?_) hs
    cases a with
    | require slot dstMrIdx dstOff size comm => exact fun _ => by simpa [checkOnce] using hc
    | _ => trivial
  obtain ⟨-, hdata, hissued, hlive⟩ := get_marks_ordered (show Transport.init 2 1 0 _ = .ok twoSlots from rfl) hreach 0
    (by rw [hcap]; decide) hu
  rw [htarget] at hdata
  exact ⟨s, hreach, htarget, hdata, (hlive 2 (by rw [hvis]; decide)).1.1 (hdata.trans hissued)⟩

/-! ## Ranges that wait for a retry -/

def Unwedged (t : Transport) : Prop := ∀ d < t.capacity, (t.domains d).inUse = true → ¬ t.Wedged d

section Unwedged
variable {once : Prop} {t t' : Transport} {ns : List Note} {s s' : System}

theorem unwedged_iff :
    Unwedged t ↔ ∀ d < t.capacity, (t.domains d).inUse = true → (t.domains d).flushRequest = none →
      (t.domains d).visibleGetSequence < (t.domains d).flushTargetGetSequence →
      ∃ i, t.Unfailed d (t.domains d).visibleGetSequence (t.domains d).flushTargetGetSequence i := by
  unfold Unwedged Transport.Wedged
  refine forall_congr' fun d => forall_congr' fun _ => forall_congr' fun _ => ?_
  push Not
  rfl

theorem Unwedged.setRequest (h : Unwedged t) (r : Request) (hout : ∀ d q, t.place slot = some (d, q) →
      q ≤ (t.domains d).visibleGetSequence ∨ (t.domains d).flushTargetGetSequence < q) :
    Unwedged (t.setRequest slot r) := by
  rw [unwedged_iff] at h ⊢
  intro d hd hu hr hlt
  obtain ⟨i, q, hp, hv, hw, hc⟩ := h d hd hu hr hlt
  have hi : i ≠ slot := by
    rintro rfl
    rcases hout d q hp with hle | hgt
    · exact absurd hv (not_lt.2 hle)
    · exact absurd hw (not_le.2 hgt)
  refine ⟨i, q, by rw [setRequest_place, if_neg hi]; exact hp, hv, hw, ?_⟩
  rw [setRequest_ne t hi]
  exact hc

theorem Sound.behind (h : Sound t) (hc : (t.requests slot).getDataComplete = false) {q : Nat}
    (hp : t.place slot = some (d, q)) : (t.domains d).flushTargetGetSequence < q := by
  obtain ⟨hd, hu, -, -⟩ := h.home slot d q hp
  refine Nat.lt_of_not_le fun hle => ?_
  have := h.early slot d q hp (hle.trans (h.marks d hd hu).2.1)
  rw [hc] at this
  exact absurd this (by simp)

theorem Sound.reserved_open (h : Sound t) (hslot : slot < t.capacity)
    (hres : (t.requests slot).state = .reserved) : (t.requests slot).getDataComplete = false := by
  by_contra hc
  exact absurd (hres.symm.trans ((h.staged slot hslot).complete (by simpa using hc)).1) (by simp)

theorem Unwedged.setDomain (h : Unwedged t) {domain : Domain}
    (hnew : domain.flushRequest = none → domain.visibleGetSequence < domain.flushTargetGetSequence →
      ∃ i, t.Unfailed d domain.visibleGetSequence domain.flushTargetGetSequence i) :
    Unwedged (t.setDomain d domain) := by
  rw [unwedged_iff] at h ⊢
  intro d' hd hu hr hlt
  by_cases he : d' = d
  · subst he
    rw [setDomain_self] at hr hlt ⊢
    exact hnew hr hlt
  · rw [setDomain_ne t he] at hu hr hlt ⊢
    exact h d' hd hu hr hlt

theorem Unwedged.finished (h : Unwedged t) (d : Nat) (result : Result) : Unwedged (t.finished d result) := by
  rw [unwedged_iff] at h ⊢
  intro d' hd hu hr hlt
  by_cases he : d' = d
  · subst he
    rw [finished_self] at hlt
    exact absurd hlt (lt_irrefl _)
  · rw [finished_capacity] at hd
    rw [finished_domains, setDomain_ne t he] at hu hr hlt ⊢
    obtain ⟨i, q, hp, hv, hw, hc⟩ := h d' hd hu hr hlt
    refine ⟨i, q, by rw [finished_place]; exact hp, hv, hw, ?_⟩
    -- the requests of another domain take no error
    have hdom := (place_eq_some.1 hp).2.2.1
    have hnot : postedIn d (t.requests i) = false := by simp [postedIn, hdom, he]
    unfold Transport.finished failCovered
    split_ifs
    · simp [hnot, hc]
    · exact hc

section

variable (hs : Sound t) (h : Unwedged t)
include hs h

theorem Unwedged.remove {q : Nat} (hslot : t.place slot = some (d, q)) (hsafe : t.SafeRemoval slot d q) :
    Unwedged (t.removed slot d q) := by
  obtain ⟨-, -, hpos, -⟩ := hs.home slot d q hslot
  rw [unwedged_iff] at h ⊢
  intro d' hd hu hr hlt
  rw [removed_domain] at hu hr hlt ⊢
  -- a request other than the removed one carries its place and its result over
  have hcarry : ∀ {i n}, i ≠ slot → t.place i = some (d', n) → (t.requests i).completionResult = .success →
      (t.removed slot d q).place i = some (d', if d' = d then dropNumber q n else n) ∧
        ((t.removed slot d q).requests i).completionResult = .success := by
    intro i n hi hp hc
    refine ⟨(removed_place hs hslot i d' _).2 ⟨hi, n, hp, rfl⟩, ?_⟩
    rw [removed_request hi (place_eq_some.1 hp).1, (renumber_keeps d q _).2.2.2]
    exact hc
  by_cases he : d' = d
  · subst he
    rw [if_pos rfl] at hu hr hlt ⊢
    have hlt' : (t.domains d').visibleGetSequence < (t.domains d').flushTargetGetSequence := by
      by_contra hge
      exact absurd hlt (not_lt.2 (dropNumber_mono q (not_lt.1 hge)))
    obtain ⟨i, hi, n, hp, hv, hw, hc⟩ : ∃ i, i ≠ slot ∧
        t.Unfailed d' (t.domains d').visibleGetSequence (t.domains d').flushTargetGetSequence i := by
      by_cases hin : (t.domains d').visibleGetSequence < q ∧ q ≤ (t.domains d').flushTargetGetSequence
      · rcases hsafe hr hin.1 hin.2 with hex | hone
        · exact hex
        · -- the removed request was alone in its range
          have : dropNumber q (t.domains d').flushTargetGetSequence ≤ dropNumber q (t.domains d').visibleGetSequence := by
            unfold dropNumber
            split_ifs <;> omega
          exact absurd hlt (not_lt.2 this)
      · obtain ⟨i, n, hp, hv, hw, hc⟩ := h d' hd hu hr hlt'
        refine ⟨i, ?_, n, hp, hv, hw, hc⟩
        rintro rfl
        rw [hslot] at hp
        cases hp
        exact hin ⟨hv, hw⟩
    have hn : n ≠ q := by
      rintro rfl
      exact hi (hs.distinct i slot d' n hp hslot)
    obtain ⟨hp', hc'⟩ := hcarry hi hp hc
    rw [if_pos rfl] at hp'
    refine ⟨i, _, hp', ?_, (dropNumber_le hpos hn).2 hw, hc'⟩
    rw [← not_le] at hv ⊢
    exact fun hle => hv ((dropNumber_le hpos hn).1 hle)
  · rw [if_neg he] at hu hr hlt ⊢
    obtain ⟨i, n, hp, hv, hw, hc⟩ := h d' hd hu hr hlt
    have hi : i ≠ slot := by
      rintro rfl
      rw [hslot] at hp
      cases hp
      exact he rfl
    obtain ⟨hp', hc'⟩ := hcarry hi hp hc
    rw [if_neg he] at hp'
    exact ⟨i, n, hp', hv, hw, hc'⟩

theorem Unwedged.move (hm : Move once True t t' ns) : Unwedged t' := by
  cases hm with
  | keep hr hd hc =>
    rw [unwedged_iff] at h ⊢
    simpa only [Unfailed, place, hr, hd, hc] using h
  | dataDone slot c hp hf =>
    refine h.setRequest _ fun d q hpl => ?_
    obtain ⟨hslot, -, hdom, -⟩ := place_eq_some.1 hpl
    exact absurd (hf.symm.trans ((hs.staged slot hslot).flush.2 (by simp [hdom]))) (by simp)
  | dataComplete slot c hslot hp hst hf =>
    refine h.setRequest _ fun d q hpl => .inr (hs.behind ?_ hpl)
    by_contra hc
    exact absurd (hst.symm.trans ((hs.staged slot hslot).pending.2 (by simpa using hc))) (by simp)
  | flushWait d answer => exact h
  | flushDone d answer hd hu hr ha => exact h.finished d _
  | advance d c hd hu hlow hhigh hdata => exact h.setDomain fun hr hlt => unwedged_iff.1 h d hd hu hr hlt
  | skip d hd hu hr ht hnone => exact h.setDomain fun _ hlt => absurd hlt (lt_irrefl _)
  | aim d range hd hu hr hrange => exact h.setDomain fun _ _ => ⟨range, hrange⟩
  | post d range answer hd hu hr hrange hwait => exact h.setDomain fun _ _ => ⟨range, hrange⟩
  | postDone d range answer hd hu hr hrange hnow =>
    have hheld : Unwedged (t.held d answer.request) := h.setDomain fun _ _ => ⟨range, hrange⟩
    exact hheld.finished d _
  | publish slot request c hslot hres | publishPending slot hslot hres hf => exact h.setRequest _ fun _ _ hpl => .inr (hs.behind (hs.reserved_open hslot hres) hpl)
  | reinit d peer orderingKey hd hnone => exact h.setDomain fun _ hlt => absurd hlt (lt_irrefl _)
  | issue slot d dstOff size dstMrIdx comm hslot hres hd hu honce =>
    have hwide : Unwedged (t.setDomain d { t.domains d with
        issuedGetSequence := (t.domains d).issuedGetSequence + 1 }) :=
      h.setDomain fun hr hlt => unwedged_iff.1 h d hd hu hr hlt
    refine hwide.setRequest _ fun d' q hp => ?_
    refine .inr ?_
    have hb := hs.behind (hs.reserved_open hslot hres) hp
    by_cases he : d' = d
    · subst he
      rw [setDomain_self]
      exact hb
    · rw [setDomain_ne t he]
      exact hb
  | remove slot d q hslot hsafe => exact h.remove hs hslot (hsafe trivial)
  | drop slot hslot =>
    refine h.setRequest _ fun d q hp => ?_
    rw [hslot] at hp
    exact absurd hp (by simp)
  | complete slot d q hslot hq =>
    refine h.setRequest _ fun d' q' hp => ?_
    rw [hslot] at hp
    cases hp
    exact .inl hq

theorem Unwedged.moves (hm : Moves once True t t' ns) : Unwedged t' := by
  induction hm with
  | refl => exact h
  | step hms hm ih => exact ih.move (hs.moves hms) hm

end

theorem Unwedged.stepped (hk : Kept s) (h : Unwedged s.transport) (hs : Stepped once True s s') : Unwedged s'.transport := by
  cases hs with
  | same => exact h
  | reserved i submit peer stagingSlot hi hfree =>
    refine h.setRequest _ fun d q hp => ?_
    simp [place, hfree] at hp
  | moved t ns ready hm hready => exact h.moves hk.sound hm

end Unwedged

/-- **Progress on a posted request succeeds** in every run in which no abort takes the last request that has not failed
out of a range whose flush is to be retried. -/
theorem get_progress_succeeds {capacity : UInt32} {generation orderingKey : UInt64} {groups : Nat → ReleaseGroup}
    {t : Transport} (hinit : Transport.init capacity generation orderingKey groups = .ok t) {s : System}
    (h : Reach System.step SafeAbort (System.start t) s) {slot : Nat} (hslot : slot < s.transport.capacity)
    (hposted : (s.transport.requests slot).state = .posted) (data flush : TestAnswer) (post : PostAnswer) :
    (s.transport.progressRequest slot data flush post).result = .success := by
  have hkept : Kept s ∧ Unwedged s.transport := by
    obtain ⟨hr, hd⟩ := init_eq hinit
    refine h.invariant (I := fun s => Kept s ∧ Unwedged s.transport) ⟨kept_start (sound_init hr hd), ?_⟩ ?_
    · intro d _ hu
      simp [System.start, hd, Domain.unused] at hu
    · intro s s' a hk hok hstep
      have hs : Stepped False True s s' := System.step_cases hk.1 hstep (fun hf => hf.elim) (fun _ => hok)
      exact ⟨hk.1.stepped hs, hk.2.stepped hk.1 hs⟩
  obtain ⟨hm, hend⟩ := progressRequest_moves False True hkept.1.sound hslot hposted data flush post
  rcases hend with ⟨hok, -⟩ | ⟨hok, -⟩ | ⟨d, q, hp, ⟨hok, -⟩ | ⟨-, -, hw⟩⟩
  · exact hok
  · exact hok
  · exact hok
  · -- the moves of the call leave no domain wedged
    obtain ⟨hd, hu, -, -⟩ := (hkept.1.sound.moves hm).home slot d q hp
    exact absurd hw (hkept.2.moves hkept.1.sound hm d hd hu)

theorem get_progress_succeeds_retry :
    ∃ s, exec System.step (System.start twoSlots) retryPending = some s ∧ (s.transport.requests 0).state = .posted ∧
      ∀ data flush post, (s.transport.progressRequest 0 data flush post).result = .success := by
  have hsome : ((exec System.step (System.start twoSlots) retryPending).map fun s =>
      ((s.transport.requests 0).state, s.transport.capacity)) = some (.posted, 2) := by decide
  obtain ⟨s, hs, he⟩ := map_eq_some_iff.1 hsome
  rw [Prod.mk.injEq] at he
  have hreach : Reach System.step SafeAbort (System.start twoSlots) s := by
    refine Reach.of_exec (fun s a ha => ?_) hs
    simp only [retryPending, mem_cons, not_mem_nil, or_false] at ha
    rcases ha with rfl | rfl | rfl | rfl | rfl | rfl | rfl | rfl <;> exact trivial
  refine ⟨s, hs, he.1, fun data flush post => ?_⟩
  exact get_progress_succeeds (show Transport.init 2 1 0 _ = .ok twoSlots from rfl) hreach (by rw [he.2]; decide) he.1
    data flush post

/-- The second GET is aborted: the first stays in a range whose flush is to be retried, and progress rejects it. -/
theorem get_progress_rejected :
    ∃ t s, Transport.init 2 1 0 (fun _ => ⟨0, 0, .opened, 0, 0, false, .success⟩) = .ok t ∧
      Reach System.step (fun _ _ => True) (System.start t) s ∧ 0 < s.transport.capacity ∧
      (s.transport.requests 0).state = .posted ∧
      (s.transport.progressRequest 0 ⟨.success, true⟩ ⟨.success, true⟩ ⟨.success, none⟩).result = .invalidArgument := by
  have hsome : ((exec System.step (System.start twoSlots) (retryPending ++ [.abort 1])).map fun s =>
      ((s.transport.requests 0).state, s.transport.capacity,
        (s.transport.progressRequest 0 ⟨.success, true⟩ ⟨.success, true⟩ ⟨.success, none⟩).result)) =
      some (.posted, 2, .invalidArgument) := by decide
  obtain ⟨s, hs, he⟩ := map_eq_some_iff.1 hsome
  simp only [Prod.mk.injEq] at he
  refine ⟨twoSlots, s, rfl, Reach.of_exec (fun _ _ _ => trivial) hs, ?_, he.1, he.2.2⟩
  rw [he.2.1]
  decide

end FlagCX.KernelProxy
