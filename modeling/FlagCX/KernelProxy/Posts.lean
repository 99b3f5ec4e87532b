import FlagCX.KernelProxy.Books

/-!
# What one post leaves behind

* `Prepared`  : a post has reserved a request, and perhaps issued a GET.
* `Untouched` : what a post leaves that does not post.
* `Posted`    : what a post leaves that does.
* `Kernel.post_spec` : the outcome of one post.
-/

namespace FlagCX.KernelProxy
open Function Option

open Net Lib Transport

/-! ## A post that gives up -/

/-- An idle domain may have been initialised for the peer. -/
def Opened (peer : Int) (t t' : Transport) : Prop :=
  t' = t ∨ ∃ d < t.capacity, Idle t d ∧
    t' = t.setDomain d { Domain.unused with orderingKey := t.orderingKey, peer := peer, inUse := true }

/-- What a post leaves that does not post: all as before, but for an idle GET domain that may have been initialised. -/
structure Untouched (peer : Int) (k k' : Kernel) : Prop where
  transport : Opened peer k.transport k'.transport
  staging : k'.stagingInUse = k.stagingInUse
  count : k'.stagingSlotCount = k.stagingSlotCount

/-- A post has reserved the free slot `i`; to cancel the request brings back `t₁`. -/
structure Prepared (t t₁ t' : Transport) (i : Nat) (submit : SubmitContext) (stagingSlot : Int) (flush : Bool) : Prop where
  slot : i < t.capacity
  free : (t.requests i).state = .free
  reserved : (t'.requests i).state = .reserved
  staging : (t'.requests i).stagingSlot = stagingSlot
  flush : flush = true → (t'.requests i).requiresGetFlush = true
  other : ∀ j, j ≠ i → t'.requests j = t.requests j
  capacity : t'.capacity = t.capacity
  inflight : t'.nativeInflight = t.nativeInflight
  submit : (t'.requests i).submit = submit
  scoreboard : t'.scoreboard = t.scoreboard
  nextSequence : t'.nextSequence = t.nextSequence
  sound : Sound t'
  before : Sound t₁
  cancel : t'.cancelRequest i = (.success, t₁)

section Prepare
variable {t t₁ t' : Transport} {i d : Nat} {r : Request} {peer held : Int} {submit : SubmitContext}

theorem Opened.requests (h : Opened peer t t') : t'.requests = t.requests ∧ t'.capacity = t.capacity ∧
    t'.nativeInflight = t.nativeInflight := by
  rcases h with rfl | ⟨d, -, -, rfl⟩
  · exact ⟨rfl, rfl, rfl⟩
  · exact ⟨rfl, rfl, rfl⟩

theorem Opened.scoreboard (h : Opened peer t t') : t'.scoreboard = t.scoreboard ∧ t'.nextSequence = t.nextSequence := by
  rcases h with rfl | ⟨d, -, -, rfl⟩
  · exact ⟨rfl, rfl⟩
  · exact ⟨rfl, rfl⟩

theorem cancel_reserved (hreset : t.requests i = requestReset) (hr : r.state = .reserved) (hzero : r.getSequence = 0) :
    (t.setRequest i r).cancelRequest i = (.success, t) := by
  rw [cancelRequest, removeGetVisibilitySequence, setRequest_self]
  dsimp only
  rw [if_neg (not_not.2 hr), if_pos hzero, if_neg (not_not.2 rfl), ← hreset]
  simp [setRequest]

theorem cancelRequest_eq (h : Sound t) {q : Nat} (hres : (t.requests i).state = .reserved) (hp : t.place i = some (d, q)) :
    t.cancelRequest i = (.success, t.removed i d q) := by
  obtain ⟨hi, -, hdom, hseq⟩ := place_eq_some.1 hp
  obtain ⟨hd, hu, hpos, hle⟩ := h.home i d q hp
  have hremove : t.removeGetVisibilitySequence i = (.success,
      { t with requests := fun i => if i < t.capacity then renumber d q (t.requests i) else t.requests i }.setDomain d
        ((t.domains d).dropped q)) := by
    rw [removeGetVisibilitySequence]
    dsimp only
    rw [hseq, if_neg hpos.ne', hdom]
    dsimp only
    rw [if_neg (not_le.2 hd), if_neg (by rw [hu]; simp [hle]), Domain.removeIssue,
      if_neg (by rw [hu]; simp [hle, hpos.ne']), Domain.dropped, dropNumber, if_pos hle]
    rfl
  rw [cancelRequest, hremove, if_neg (not_not.2 hres)]
  rfl

def issued (t : Transport) (i d : Nat) (r : Request) : Transport :=
  (t.setDomain d { t.domains d with issuedGetSequence := (t.domains d).issuedGetSequence + 1 }).setRequest i r

theorem removed_issued (h : Sound t) (hd : d < t.capacity) (hu : (t.domains d).inUse = true)
    (hreset : t.requests i = requestReset) : (issued t i d r).removed i d ((t.domains d).issuedGetSequence + 1) = t := by
  have hmarks := h.marks d hd hu
  have hreq : ((issued t i d r).removed i d ((t.domains d).issuedGetSequence + 1)).requests = t.requests := by
    funext j
    by_cases hji : j = i
    · rw [hji, hreset, removed, setRequest_self]
    rw [removed, setRequest_ne _ hji]
    show (if j < t.capacity then renumber _ _ ((issued t i d r).requests j) else (issued t i d r).requests j) = _
    rw [issued, setRequest_ne _ hji]
    split_ifs with hj
    · rw [renumber, if_neg]
      · rfl
      rintro ⟨hlive, hjd, hlt⟩
      have hle := (h.home j d _ (place_eq_some.2 ⟨hj, hlive, hjd, rfl⟩)).2.2.2
      exact absurd (hlt.trans_le hle) (by omega)
    · rfl
  have hdom : ((issued t i d r).removed i d ((t.domains d).issuedGetSequence + 1)).domains = t.domains := by
    funext d'
    rw [removed_domain, issued, setRequest_domains, setDomain_self]
    split_ifs with hdd
    · obtain ⟨hv, hf, hle⟩ := hmarks
      rw [hdd, Domain.dropped, dropNumber, dropNumber, dropNumber, dropNumber, if_pos le_rfl, if_neg (by dsimp only; omega),
        if_neg (by dsimp only; omega), if_neg (by dsimp only; omega)]
      rfl
    · rw [setDomain_ne _ hdd]
  calc (issued t i d r).removed i d ((t.domains d).issuedGetSequence + 1)
      = { t with
          requests := ((issued t i d r).removed i d ((t.domains d).issuedGetSequence + 1)).requests
          domains := ((issued t i d r).removed i d ((t.domains d).issuedGetSequence + 1)).domains } := rfl
    _ = t := by rw [hreq, hdom]

def reservation (submit : SubmitContext) (peer stagingSlot : Int) : Request :=
  { requestReset with submit := submit, peer := peer, stagingSlot := stagingSlot, state := .reserved }

theorem prepared_reserve (peer held : Int) (h : Sound t) (hi : i < t.capacity) (hfree : (t.requests i).state = .free)
    (submit : SubmitContext) : Prepared t t (t.setRequest i (reservation submit peer held)) i submit held false := by
  have hreset := (h.staged i hi).free hfree
  have hsound := h.reserve submit peer held hi hfree
  rw [hreset] at hsound
  exact {
    slot := hi
    free := hfree
    reserved := by rw [setRequest_self]; rfl
    staging := by rw [setRequest_self]; rfl
    flush := nofun
    other := fun j hj => setRequest_ne t hj _
    capacity := rfl
    inflight := rfl
    submit := by rw [setRequest_self]; rfl
    scoreboard := rfl
    nextSequence := rfl
    sound := hsound
    before := h
    cancel := cancel_reserved hreset rfl rfl }

theorem prepared_issue (h : Sound t) (hi : i < t.capacity) (hfree : (t.requests i).state = .free) (hd : d < t.capacity)
    (hu : (t.domains d).inUse = true) (hr : r.state = .reserved) (hslot : r.stagingSlot = held)
    (hsubmit : r.submit = submit) (hflush : r.requiresGetFlush = true) (hdom : r.getVisibilityDomain = some d)
    (hseq : r.getSequence = (t.domains d).issuedGetSequence + 1) (hsound : Sound (issued t i d r)) :
    Prepared t t (issued t i d r) i submit held true := by
  have hself : (issued t i d r).requests i = r := setRequest_self ..
  have hplace : (issued t i d r).place i = some (d, (t.domains d).issuedGetSequence + 1) :=
    place_eq_some.2 ⟨hi, by rw [hself, hr]; exact nofun, by rw [hself, hdom], by rw [hself, hseq]⟩
  exact {
    slot := hi
    free := hfree
    reserved := by rw [hself, hr]
    staging := by rw [hself, hslot]
    flush := fun _ => by rw [hself, hflush]
    other := fun j hj => setRequest_ne _ hj _
    capacity := rfl
    inflight := rfl
    submit := by rw [hself, hsubmit]
    scoreboard := rfl
    nextSequence := rfl
    sound := hsound
    before := h
    cancel := by
      rw [cancelRequest_eq hsound (by rw [hself, hr]) hplace, removed_issued h hd hu ((h.staged i hi).free hfree)] }

theorem Prepared.opened {flush : Bool} (ho : Opened peer t t₁) (h : Prepared t₁ t₁ t' i submit held flush) :
    Prepared t t₁ t' i submit held flush := by
  obtain ⟨hreq, hcap, hcount⟩ := ho.requests
  exact { h with
    slot := hcap ▸ h.slot
    free := hreq ▸ h.free
    other := hreq ▸ h.other
    capacity := h.capacity.trans hcap
    inflight := h.inflight.trans hcount
    scoreboard := h.scoreboard.trans ho.scoreboard.1
    nextSequence := h.nextSequence.trans ho.scoreboard.2 }

theorem Idle.reserved (h : Idle (t.setRequest i (reservation submit peer held)) d) (hfree : (t.requests i).state = .free) :
    Idle t d := by
  refine ⟨fun j s hj => h.empty j s ?_, h.quiet⟩
  have hji : j ≠ i := by
    rintro rfl
    exact (place_eq_some.1 hj).2.1 hfree
  rw [setRequest_place, if_neg hji]
  exact hj

theorem readyDomain_opened (h : Sound t) (hd : d < t.capacity) (hserve : t.servesPeer peer (t.domains d) = true ∨ Idle t d)
    {domain : Domain} (hready : t.readyDomain peer d = .ok domain) :
    Opened peer t (t.setDomain d domain) ∧ Sound (t.setDomain d domain) := by
  rw [readyDomain] at hready
  split_ifs at hready with hs
  · cases hready
    rw [setDomain_eq_self]
    exact ⟨.inl rfl, h⟩
  · rw [Domain.init] at hready
    split_ifs at hready
    cases hready
    have hidle := hserve.resolve_left hs
    exact ⟨.inr ⟨d, hd, hidle, rfl⟩, h.move (.reinit d peer _ hd hidle.empty : Move False False t _ [])⟩

theorem prepared_require (h : Sound t) (hi : i < t.capacity) (hfree : (t.requests i).state = .free) (dstMrIdx : Int)
    (dstOff size recvComm : Nat) {out : Result × Transport}
    (hout : (t.setRequest i (reservation submit peer held)).requireGetFlush i dstMrIdx dstOff size recvComm = out) :
    ∃ t₁, Opened peer t t₁ ∧ Prepared t t₁ out.2 i submit held (decide (out.1 = .success)) := by
  have hplain := prepared_reserve peer held h hi hfree submit
  have hself : (t.setRequest i (reservation submit peer held)).requests i = reservation submit peer held := setRequest_self ..
  have hsound : Sound out.2 := by
    rw [← hout]
    exact hplain.sound.moves (requireGetFlush_moves False False hplain.sound hi dstMrIdx dstOff size recvComm nofun)
  -- every exit before the domain is ready leaves the reservation
  have hstay : ∀ e, e ≠ Result.success → (e, t.setRequest i (reservation submit peer held)) = out →
      ∃ t₁, Opened peer t t₁ ∧ Prepared t t₁ out.2 i submit held (decide (out.1 = .success)) := by
    rintro e he rfl
    rw [decide_eq_false he]
    exact ⟨t, .inl rfl, hplain⟩
  rw [requireGetFlush, hself] at hout
  split_ifs at hout with harg hres
  · exact hstay .invalidArgument nofun hout
  · exact hstay .invalidArgument nofun hout
  cases hpick : (t.setRequest i (reservation submit peer held)).pickDomain (reservation submit peer held).peer with
  | none =>
    rw [hpick] at hout
    exact hstay .inProgress nofun hout
  | some d =>
    obtain ⟨hd, hserve⟩ := pickDomain_some hplain.sound hpick
    rw [hpick] at hout
    dsimp only at hout
    cases hready : (t.setRequest i (reservation submit peer held)).readyDomain (reservation submit peer held).peer d with
    | error e =>
      rw [hready] at hout
      refine hstay e ?_ hout
      rw [readyDomain, Domain.init] at hready
      split_ifs at hready
      cases hready
      exact nofun
    | ok domain =>
      rw [hready] at hout
      dsimp only at hout
      obtain ⟨hopened, hbefore⟩ := readyDomain_opened h hd (hserve.imp_right fun hidle => hidle.reserved hfree) hready
      rw [Domain.issue] at hout
      split_ifs at hout with hissue
      · rw [← hout, decide_eq_false nofun]
        exact ⟨_, hopened, (prepared_reserve peer held hbefore hi hfree submit).opened hopened⟩
      · push Not at hissue
        have hissued : out.2 = issued (t.setDomain d domain) i d { reservation submit peer held with
            getSequence := domain.issuedGetSequence + 1, getVisibilityDomain := some d, dstMrIdx := dstMrIdx
            dstOff := dstOff, size := size, flushRecvComm := some recvComm, requiresGetFlush := true } := by
          rw [← hout]
          simp [issued, Transport.setRequest, Transport.setDomain]
        rw [hissued] at hsound ⊢
        rw [← hout, decide_eq_true rfl]
        refine ⟨_, hopened, Prepared.opened hopened ?_⟩
        refine prepared_issue hbefore hi hfree hd ?_ rfl rfl rfl rfl rfl ?_ hsound
        · rw [setDomain_self]
          simpa using hissue.1
        · rw [setDomain_self]

end Prepare

/-! ## One post -/

/-- The request in the free slot `i` is posted. -/
structure Posted (t : Transport) (k' : Kernel) (i : Nat) (submit : SubmitContext) (held : Int) : Prop where
  slot : i < t.capacity
  free : (t.requests i).state = .free
  posted : (k'.transport.requests i).state = .posted
  staging : (k'.transport.requests i).stagingSlot = held
  submit : (k'.transport.requests i).submit = submit
  scoreboard : k'.transport.scoreboard = t.scoreboard
  nextSequence : k'.transport.nextSequence = t.nextSequence
  other : ∀ j, j ≠ i → k'.transport.requests j = t.requests j
  capacity : k'.transport.capacity = t.capacity
  books : Books (-1) k'

section Post
variable {k : Kernel} {t₁ t' : Transport} {i : Nat} {peer held : Int} {flush : Bool} {submit : SubmitContext}

section

variable (h : Books held k)
include h

theorem Prepared.publish (hp : Prepared k.transport t₁ t' i submit held flush) {r : Request} {t'' : Transport}
    (hr : r.state = .posted) (hslot : r.stagingSlot = (t'.requests i).stagingSlot)
    (hsubmit : r.submit = (t'.requests i).submit)
    (ht : t'' = { t'.setRequest i r with nativeInflight := t'.nativeInflight + 1 }) (hs : Sound t'') :
    Posted k.transport { k with transport := t'' } i submit held := by
  have hself : t''.requests i = r := by
    rw [ht]
    exact setRequest_self ..
  have hother : ∀ j, j ≠ i → t''.requests j = k.transport.requests j := by
    intro j hj
    rw [ht, ← hp.other j hj]
    exact setRequest_ne _ hj _
  have hcap : t''.capacity = k.transport.capacity := by rw [ht, ← hp.capacity]; rfl
  refine ⟨hp.slot, hp.free, by rw [hself, hr], by rw [hself, hslot, hp.staging], by rw [hself, hsubmit, hp.submit], ?_, ?_,
    hother, hcap, ?_⟩
  · rw [ht, ← hp.scoreboard]
    rfl
  · rw [ht, ← hp.nextSequence]
    rfl
  refine h.enter hp.slot hp.free ?_ ?_ hother hcap ?_ hs
  · rw [hself, hr]
    exact nofun
  · rw [hself, hslot, hp.staging]
  · rw [hself, if_pos hr, ← hp.inflight, ht]

theorem Books.opened (ho : Opened peer k.transport t₁) (hs : Sound t₁) : Books held { k with transport := t₁ } := by
  obtain ⟨hreq, hcap, hcount⟩ := ho.requests
  exact h.congr hs (fun i => by rw [hreq]) (fun i => by rw [hreq]) hcap hcount

theorem abandon_spec (ho : Opened peer k.transport t₁) (hp : Prepared k.transport t₁ t' i submit held flush) (res : Result) :
    (Kernel.abandon { k with transport := t' } i held res).2.1 =
      (Kernel.releaseIfAny { k with transport := t₁ } held).2 := by
  obtain ⟨hok, -⟩ := (h.opened ho hp.before).release
  rw [Kernel.abandon, hp.cancel]
  dsimp only
  rw [if_neg (not_not.2 hok)]

theorem Prepared.publishRequest (hp : Prepared k.transport t₁ t' i submit held flush) (request : Nat) (c : Result) :
    (t'.publishRequest i request c).1 = .success ∧
      Posted k.transport { k with transport := (t'.publishRequest i request c).2 } i submit held := by
  have hsound := hp.sound.moves (publishRequest_moves False False (hp.capacity ▸ hp.slot) request c)
  rw [Transport.publishRequest] at hsound ⊢
  dsimp only at hsound ⊢
  rw [if_neg (not_not.2 hp.reserved)] at hsound ⊢
  refine ⟨rfl, hp.publish h ?_ ?_ ?_ rfl hsound⟩
  · rfl
  · rfl
  · rfl

theorem Prepared.publishPending (hp : Prepared k.transport t₁ t' i submit held true) :
    (t'.publishGetFlushPending i).1 = .success ∧
      Posted k.transport { k with transport := (t'.publishGetFlushPending i).2 } i submit held := by
  have hnot : ¬ ((t'.requests i).state ≠ .reserved ∨ (t'.requests i).requiresGetFlush = false) := by
    rw [hp.reserved, hp.flush rfl]
    simp
  have hsound := hp.sound.moves (publishGetFlushPending_moves False False (hp.capacity ▸ hp.slot))
  rw [publishGetFlushPending] at hsound ⊢
  dsimp only at hsound ⊢
  rw [if_neg hnot] at hsound ⊢
  refine ⟨rfl, hp.publish h ?_ ?_ ?_ rfl hsound⟩
  · rfl
  · rfl
  · rfl

theorem finishPost_spec (ho : Opened peer k.transport t₁) (hp : Prepared k.transport t₁ t' i submit held flush)
    (answer : PostAnswer) {out : Result × Bool × Kernel × List Effect}
    (hout : Kernel.finishPost { k with transport := t' } i held flush answer = out) :
    (out.2.1 = true ∧ Posted k.transport out.2.2.1 i submit held) ∨
    (out.2.1 = false ∧ out.2.2.1 = (Kernel.releaseIfAny { k with transport := t₁ } held).2) := by
  rw [Kernel.finishPost] at hout
  cases hreq : answer.request with
  | some request =>
    obtain ⟨hok, hposted⟩ := hp.publishRequest h request (if answer.result = .inProgress then .success else answer.result)
    rw [hreq] at hout
    dsimp only at hout
    rw [if_neg (not_not.2 hok)] at hout
    rw [← hout]
    exact .inl ⟨rfl, hposted⟩
  | none =>
    rw [hreq] at hout
    dsimp only at hout
    by_cases hpending : answer.result = .success ∧ flush = true
    · obtain ⟨hres, rfl⟩ := hpending
      obtain ⟨hok, hposted⟩ := hp.publishPending h
      rw [if_pos ⟨hres, rfl⟩, if_neg (not_not.2 hok)] at hout
      rw [← hout]
      exact .inl ⟨rfl, hposted⟩
    · rw [if_neg hpending] at hout
      rw [← hout]
      exact .inr ⟨rfl, abandon_spec h ho hp answer.result⟩

end

end Post

/-! ## Staging cells -/

theorem Staging.offset_inj (staging : Staging) {contextId contextId' slot slot' : Int} {o : Nat}
    (h : staging.offset contextId slot = some o) (h' : staging.offset contextId' slot' = some o) :
    contextId = contextId' ∧ slot = slot' := by
  obtain ⟨C, S, base, total, hC, hS⟩ := staging
  rw [offset] at h h'
  dsimp only at h h'
  split_ifs at h h' with hin hout hin' hout'
  push Not at hin hin'
  obtain ⟨c, rfl⟩ := Int.eq_ofNat_of_zero_le hin.1
  obtain ⟨c', rfl⟩ := Int.eq_ofNat_of_zero_le hin'.1
  obtain ⟨s, rfl⟩ := Int.eq_ofNat_of_zero_le hin.2.2.1
  obtain ⟨s', rfl⟩ := Int.eq_ofNat_of_zero_le hin'.2.2.1
  obtain ⟨S, rfl⟩ := Int.eq_ofNat_of_zero_le (hin.2.2.1.trans hin.2.2.2.le)
  simp only [Int.toNat_natCast] at *
  have hlt : ∀ {a b : Nat}, (a : Int) < C → b < S → a * S + b < 2 ^ 62 := by
    intro a b ha hb
    calc a * S + b < (a + 1) * S := by rw [add_mul]; omega
      _ ≤ 2 ^ 31 * 2 ^ 31 := Nat.mul_le_mul (by omega) (by omega)
      _ = 2 ^ 62 := rfl
  have ha := @hlt c s hin.2.1 (by omega)
  have hb := @hlt c' s' hin'.2.1 (by omega)
  have hsame : c * S + s = c' * S + s' := by
    have hmod := some.inj (h.trans h'.symm)
    rw [add_assoc, add_assoc] at hmod
    generalize c * S + s = a at *
    generalize c' * S + s' = b at *
    omega
  have hs : s = s' := by
    have := congrArg (· % S) hsame
    simpa [Nat.mod_eq_of_lt (show s < S by omega), Nat.mod_eq_of_lt (show s' < S by omega)] using this
  have hc : c = c' := Nat.eq_of_mul_eq_mul_right (show 0 < S by omega) (by omega)
  exact ⟨by rw [hc], by rw [hs]⟩

theorem Staging.offset_nonneg (staging : Staging) {contextId slot : Int} {o : Nat}
    (h : staging.offset contextId slot = some o) : 0 ≤ slot := by
  rw [offset] at h
  split_ifs at h with hin
  push Not at hin
  exact hin.2.2.1

def cellOf (call : Option NetCall) (value : UInt64) : Option (Nat × UInt64) :=
  match call with
  | some (.iputStaged offset _ _ _) => some (offset, value)
  | _ => none

def Written (staging : Staging) (buffer : Nat → UInt64) (a : PostArgs) (held : Int) (out : Kernel.Outcome) : Prop :=
  (cellOf out.call a.putValue = none ∧ out.buffer = buffer) ∨
    ∃ o, staging.offset a.contextId held = some o ∧ cellOf out.call a.putValue = some (o, a.putValue) ∧
      out.buffer = update buffer o a.putValue

/-- A post with the staging slot `held` posts a request, or it gives everything back. -/
structure Ends (staging : Staging) (k : Kernel) (buffer : Nat → UInt64) (a : PostArgs) (held : Int) (out : Kernel.Outcome) :
    Prop where
  written : Written staging buffer a held out
  posted : out.posted = true →
    (∃ i, Posted k.transport out.kernel i a.submit held) ∧ (cellOf out.call a.putValue = none → held = -1)
  refused : out.posted = false → ∃ t₁, Sound t₁ ∧ Opened a.peer k.transport t₁ ∧
    out.kernel = (Kernel.releaseIfAny { k with transport := t₁ } held).2

section Post
variable {k : Kernel} {t₁ t' : Transport} {i : Nat} {held : Int} {flush : Bool} {staging : Staging}
  {buffer : Nat → UInt64} {a : PostArgs} {comm : Comm} {submit : SubmitContext}

theorem netCall_error {n : UInt32} {e : Result} (h : Kernel.netCall comm staging a n held = .error e) : e ≠ .success := by
  rintro rfl
  rw [Kernel.netCall] at h
  cases htype : a.type with
  | put | get | putSignal =>
    rw [htype] at h
    dsimp only at h
    split_ifs at h
    cases h
  | putValue =>
    rw [htype] at h
    dsimp only at h
    cases hoff : staging.offset a.contextId held with
    | none =>
      rw [hoff] at h
      split_ifs at h <;> cases h
    | some o =>
      rw [hoff] at h
      split_ifs at h <;> cases h

theorem netCall_ok (buffer : Nat → UInt64) {n : UInt32} {call : NetCall} (h : Kernel.netCall comm staging a n held = .ok call) :
    (a.type ≠ .putValue ∧ cellOf (some call) a.putValue = none ∧ Kernel.stage buffer a.putValue call = buffer) ∨
    ∃ o, staging.offset a.contextId held = some o ∧ cellOf (some call) a.putValue = some (o, a.putValue) ∧
      Kernel.stage buffer a.putValue call = update buffer o a.putValue := by
  rw [Kernel.netCall] at h
  cases htype : a.type with
  | put | get | putSignal =>
    rw [htype] at h
    dsimp only at h
    split_ifs at h
    cases h
    exact .inl ⟨nofun, rfl, rfl⟩
  | putValue =>
    rw [htype] at h
    dsimp only at h
    split_ifs at h
    cases hoff : staging.offset a.contextId held with
    | none =>
      rw [hoff] at h
      cases h
    | some o =>
      rw [hoff] at h
      cases h
      exact .inr ⟨o, rfl, rfl, rfl⟩

theorem postReserved_ends (h : Books held k) (ho : Opened a.peer k.transport t₁)
    (hp : Prepared k.transport t₁ t' i a.submit held flush) (hkind : a.type ≠ .putValue → held = -1) (answer : PostAnswer) :
    Ends staging k buffer a held
      (Kernel.postReserved { k with transport := t' } comm staging buffer a i held flush answer) := by
  rw [Kernel.postReserved]
  cases hcall : Kernel.netCall comm staging a k.stagingSlotCount held with
  | error e =>
    -- without a call the request is cancelled
    rcases finishPost_spec h ho hp ⟨e, none⟩ rfl with ⟨hposted, -⟩ | ⟨hrefused, hkernel⟩
    · rw [Kernel.finishPost] at hposted
      dsimp only at hposted
      rw [if_neg fun hok => netCall_error hcall hok.1] at hposted
      cases hposted
    · exact ⟨.inl ⟨rfl, rfl⟩, fun hposted => absurd (hrefused.symm.trans hposted) nofun,
        fun _ => ⟨t₁, hp.before, ho, hkernel⟩⟩
  | ok call =>
    have hwritten := netCall_ok buffer hcall
    rcases finishPost_spec h ho hp answer rfl with ⟨hposted, hp'⟩ | ⟨hrefused, hkernel⟩
    · refine ⟨hwritten.imp_left fun hplain => hplain.2, fun _ => ⟨⟨i, hp'⟩, fun hnone => ?_⟩,
        fun hrefused => absurd (hrefused.symm.trans hposted) nofun⟩
      rcases hwritten with ⟨htype, -⟩ | ⟨o, -, hcell, -⟩
      · exact hkind htype
      · rw [hcell] at hnone
        cases hnone
    · exact ⟨hwritten.imp_left fun hplain => hplain.2, fun hposted => absurd (hrefused.symm.trans hposted) nofun,
        fun _ => ⟨t₁, hp.before, ho, hkernel⟩⟩

theorem ends_refused (ho : Opened a.peer k.transport t₁) (hs : Sound t₁) (result : Result) : Ends staging k buffer a held
      ⟨result, false, (Kernel.releaseIfAny { k with transport := t₁ } held).2, buffer, [], none⟩ :=
  ⟨.inl ⟨rfl, rfl⟩, nofun, fun _ => ⟨t₁, hs, ho, rfl⟩⟩

theorem postStaged_ends (h : Books held k) (hkind : a.type ≠ .putValue → held = -1) (answer : PostAnswer) :
    Ends staging k buffer a held (k.postStaged comm staging buffer a held answer) := by
  rw [Kernel.postStaged]
  dsimp only
  rcases reserveRequest_cases k.transport a.submit a.peer held with hnone | ⟨i, hi, hfree, hsome⟩
  · rw [hnone]
    exact ends_refused (.inl rfl) h.sound _
  have hplain := prepared_reserve a.peer held h.sound hi hfree a.submit
  have hreserved : (k.transport.reserveRequest a.submit a.peer held).2 =
      (k.transport.setRequest i (reservation a.submit a.peer held), some i) := by
    rw [hsome, (h.sound.staged i hi).free hfree]
    rfl
  rw [hreserved]
  dsimp only
  by_cases hflush : a.type = .get ∧ a.size ≠ 0 ∧ comm.getRequiresFlush a.dstMrIdx = true
  swap
  · rw [if_neg hflush]
    exact postReserved_ends h (.inl rfl) hplain hkind answer
  rw [if_pos hflush]
  generalize hout : Kernel.requireFlush _ comm a i = required
  have hprepared : ∃ t₁, Opened a.peer k.transport t₁ ∧
      Prepared k.transport t₁ required.2 i a.submit held (decide (required.1 = .success)) := by
    rw [Kernel.requireFlush] at hout
    cases hcomm : comm.recvComm (a.contextId + 1) with
    | none =>
      rw [hcomm] at hout
      rw [← hout]
      exact ⟨_, .inl rfl, hplain⟩
    | some recvComm =>
      rw [hcomm] at hout
      exact prepared_require h.sound hi hfree _ _ _ _ hout
  obtain ⟨t₁, ho, hp⟩ := hprepared
  by_cases hok : required.1 = .success
  · rw [if_neg (not_not.2 hok)]
    rw [decide_eq_true hok] at hp
    exact postReserved_ends h ho hp hkind answer
  · rw [if_pos hok, hp.cancel]
    exact ends_refused ho hp.before _

structure PostSpec (staging : Staging) (k : Kernel) (buffer : Nat → UInt64) (a : PostArgs) (out : Kernel.Outcome) : Prop where
  books : Books (-1) out.kernel
  refused : out.posted = false → Untouched a.peer k out.kernel
  posted : out.posted = true → ∃ i held, Posted k.transport out.kernel i a.submit held ∧
    (cellOf out.call a.putValue = none → held = -1) ∧ Written staging buffer a held out
  written : (cellOf out.call a.putValue = none ∧ out.buffer = buffer) ∨
    ∃ s o : Nat, k.stagingInUse s = false ∧ staging.offset a.contextId s = some o ∧
      cellOf out.call a.putValue = some (o, a.putValue) ∧ out.buffer = update buffer o a.putValue

theorem Ends.spec {k₀ : Kernel} {out : Kernel.Outcome} (h : Books held k₀) (he : Ends staging k₀ buffer a held out)
    (ht : k₀.transport = k.transport) (hcount : k₀.stagingSlotCount = k.stagingSlotCount)
    (hback : (if 0 ≤ held then update k₀.stagingInUse held.toNat false else k₀.stagingInUse) = k.stagingInUse)
    (hfree : 0 ≤ held → k.stagingInUse held.toNat = false) :
    PostSpec staging k buffer a out := by
  have hrefused : out.posted = false → Books (-1) out.kernel ∧ Untouched a.peer k out.kernel := by
    intro hno
    obtain ⟨t₁, hs, ho, hout⟩ := he.refused hno
    obtain ⟨-, htransport, hcount', huse, hbooks⟩ := (h.opened ho hs).release
    rw [hout]
    refine ⟨hbooks, ?_, huse.trans hback, hcount'.trans hcount⟩
    rw [htransport, ← ht]
    exact ho
  constructor
  · cases hposted : out.posted with
    | false => exact (hrefused hposted).1
    | true =>
      obtain ⟨⟨i, hi⟩, -⟩ := he.posted hposted
      exact hi.books
  · exact fun hno => (hrefused hno).2
  · intro hposted
    obtain ⟨⟨i, hi⟩, hnone⟩ := he.posted hposted
    exact ⟨i, held, ht ▸ hi, hnone, he.written⟩
  · refine he.written.imp_right ?_
    rintro ⟨o, hoff, hcell, hbuffer⟩
    have h0 := staging.offset_nonneg hoff
    exact ⟨held.toNat, o, hfree h0, by rw [Int.toNat_of_nonneg h0]; exact hoff, hcell, hbuffer⟩

/-- **One post**: it posts the request of a free slot, or it leaves nothing. -/
theorem Kernel.post_spec (h : Books (-1) k) (comm : Comm) (staging : Staging) (buffer : Nat → UInt64) (a : PostArgs)
    (answer : PostAnswer) : PostSpec staging k buffer a (k.post comm staging buffer a answer) := by
  have hnothing : ∀ result, PostSpec staging k buffer a ⟨result, false, k, buffer, [], none⟩ := fun result =>
    ⟨h, fun _ => ⟨.inl rfl, rfl, rfl⟩, nofun, .inl ⟨rfl, rfl⟩⟩
  rw [Kernel.post]
  dsimp only
  split_ifs with hcheck htype
  · exact hnothing _
  · rcases h.acquire with hnone | ⟨s, hsome, hfree, ht, huse, hcount, hbooks⟩
    · rw [hnone]
      exact hnothing _
    · rw [hsome]
      dsimp only
      refine (postStaged_ends hbooks (fun hne => absurd htype hne) answer).spec hbooks ht hcount ?_ fun _ => hfree
      rw [if_pos (Int.natCast_nonneg s), Int.toNat_natCast, huse, update_idem, ← hfree, update_eq_self]
  · exact (postStaged_ends h (fun _ => rfl) answer).spec h rfl rfl (if_neg (by decide)) fun hneg => absurd hneg (by decide)

end Post

end FlagCX.KernelProxy
